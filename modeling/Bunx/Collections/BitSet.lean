/-
Module: Bunx.Collections.BitSet
Purpose: The bit set of run-time length: its mask words, the operations on them and the
  iterators, as the code computes them.
Trusted boundary: whether the allocator serves a request, and what new words hold before
  they are written, comes with the call.
Main exports:
  DynamicBitSetUnmanaged, resize, setRangeValueMasks, toggleFirstSet, BitSetIterator,
  Op, Op.call
-/
import Bunx.Lib.Words

namespace Bunx.Collections

open Lib

/-- A mask word, `usize`. -/
abbrev Word := BitVec 64

/-- `bool_mask_usize`: every bit is `value`. -/
def boolMaskUsize (value : Bool) : Word := if value then BitVec.allOnes 64 else 0

/-- `word_mask_bit`: the bit within a word. -/
def wordMaskBit (index : Nat) : Word := 1#64 <<< (index % 64)

/-- `word_mask_index`: the word that holds the bit. -/
def wordMaskIndex (index : Nat) : Nat := index / 64

/-- `masks[first..past].fill(value)`. -/
def fillMasks (masks : List Word) (first past : Nat) (value : Word) : List Word :=
  masks.mapIdx fun j mask => if first ≤ j ∧ j < past then value else mask

/-- `set_range_value_masks`. -/
def setRangeValueMasks (masks : List Word) (start stop : Nat) (value : Bool) : List Word :=
  if start = stop then masks
  else
    let startMaskIndex := wordMaskIndex start
    let startBit := start % 64
    let endMaskIndex := wordMaskIndex stop
    let endBit := stop % 64
    if startMaskIndex = endMaskIndex then
      let masks := masks.modify startMaskIndex fun mask =>
        mask &&& ~~~((boolMaskUsize true <<< startBit) &&&
          (boolMaskUsize true >>> (63 - (endBit - 1))))
      masks.modify startMaskIndex fun mask =>
        mask ||| ((boolMaskUsize value <<< startBit) &&&
          (boolMaskUsize value >>> (63 - (endBit - 1))))
    else
      let bulk :=
        if startBit > 0 then
          (masks.modify startMaskIndex fun mask =>
            (mask &&& ~~~(boolMaskUsize true <<< startBit)) |||
              (boolMaskUsize value <<< startBit),
            startMaskIndex + 1)
        else (masks, startMaskIndex)
      let masks := fillMasks bulk.1 bulk.2 endMaskIndex (boolMaskUsize value)
      if endBit > 0 then
        masks.modify endMaskIndex fun mask =>
          (mask &&& (boolMaskUsize true <<< endBit)) |||
            (boolMaskUsize value >>> (63 - (endBit - 1)))
      else masks

/-- `num_masks_for`, `bit_length.div_ceil(64)`. -/
def numMasks (bitLength : Nat) : Nat := (bitLength + 63) / 64

/-- `usize::MAX >> padding_bits`, the bits of the last word that are in the set. -/
def lastItemMask (masks bitLength : Nat) : Word := BitVec.allOnes 64 >>> (masks * 64 - bitLength)

/-- The words of the allocation after its length word. It can hold more words than the length
needs: a shrink that the allocator refuses keeps them. -/
structure DynamicBitSetUnmanaged where
  bitLength : Nat
  masks : List Word
deriving DecidableEq

/-- What the allocator does with a request: refuse it, or serve it with new words that hold
anything. -/
abbrev Grant := Option (List Word)

/-- `dyn_realloc` and what `resize` does with its answer. -/
def realloc (masks : List Word) (newMasks : Nat) (grant : Grant) : Option (List Word) :=
  if masks.length = newMasks then some masks
  else
    match grant with
    | some fresh => some ((masks ++ fresh ++ List.replicate newMasks 0).take newMasks)
    | none => if newMasks > masks.length then none else some masks

namespace DynamicBitSetUnmanaged

/-- `Default`: the empty sentinel. -/
def empty : DynamicBitSetUnmanaged := ⟨0, []⟩

/-- `masks_slice`. -/
def masksSlice (self : DynamicBitSetUnmanaged) : List Word :=
  self.masks.take (numMasks self.bitLength)

/-- A write through `masks_slice_mut`. -/
def onMasks (self : DynamicBitSetUnmanaged) (write : List Word → List Word) :
    DynamicBitSetUnmanaged :=
  { self with masks := write self.masksSlice ++ self.masks.drop (numMasks self.bitLength) }

/-- `resize`; `none` is `AllocError`, which leaves the set as it was. -/
def resize (self : DynamicBitSetUnmanaged) (newLen : Nat) (fill : Bool) (grant : Grant) :
    Option DynamicBitSetUnmanaged :=
  let oldLen := self.bitLength
  let oldMasks := numMasks oldLen
  let newMasks := numMasks newLen
  if newMasks = 0 then some empty
  else
    (realloc self.masks newMasks grant).map fun masks =>
      let masks :=
        if newLen > oldLen then
          let masks :=
            if fill && decide (oldMasks > 0) then
              masks.modify (oldMasks - 1) fun mask =>
                mask ||| ~~~(BitVec.allOnes 64 >>> (oldMasks * 64 - oldLen))
            else masks
          if newMasks > oldMasks then fillMasks masks oldMasks newMasks (boolMaskUsize fill)
          else masks
        else masks
      let masks :=
        if newLen > 0 then
          masks.modify (newMasks - 1) fun mask => mask &&& lastItemMask newMasks newLen
        else masks
      { bitLength := newLen, masks := masks }

/-- `init_empty`. -/
def initEmpty (bitLength : Nat) (grant : Grant) : Option DynamicBitSetUnmanaged :=
  empty.resize bitLength false grant

/-- `init_full`. -/
def initFull (bitLength : Nat) (grant : Grant) : Option DynamicBitSetUnmanaged :=
  empty.resize bitLength true grant

/-- `masks_slice()[num_masks - 1] &= last_item_mask`. -/
def trimLast (bitLength : Nat) (masks : List Word) : List Word :=
  masks.modify (numMasks bitLength - 1) fun mask =>
    mask &&& lastItemMask (numMasks bitLength) bitLength

/-- `is_set`. -/
def isSet (self : DynamicBitSetUnmanaged) (index : Nat) : Bool :=
  self.masksSlice.getD (wordMaskIndex index) 0 &&& wordMaskBit index != 0

/-- `count`. -/
def count (self : DynamicBitSetUnmanaged) : Nat :=
  self.masksSlice.foldl (fun total mask => total + mask.cpop.toNat) 0

/-- `set_value`. -/
def setValue (self : DynamicBitSetUnmanaged) (index : Nat) (value : Bool) :
    DynamicBitSetUnmanaged :=
  let bit := wordMaskBit index
  let newBit := bit &&& boolMaskUsize value
  self.onMasks fun masks => masks.modify (wordMaskIndex index) fun mask =>
    (mask &&& ~~~bit) ||| newBit

/-- `set`. -/
def set (self : DynamicBitSetUnmanaged) (index : Nat) : DynamicBitSetUnmanaged :=
  self.onMasks fun masks => masks.modify (wordMaskIndex index) (· ||| wordMaskBit index)

/-- `set_range_value`. -/
def setRangeValue (self : DynamicBitSetUnmanaged) (start stop : Nat) (value : Bool) :
    DynamicBitSetUnmanaged :=
  self.onMasks fun masks => setRangeValueMasks masks start stop value

/-- `unset`. -/
def unset (self : DynamicBitSetUnmanaged) (index : Nat) : DynamicBitSetUnmanaged :=
  self.onMasks fun masks => masks.modify (wordMaskIndex index) (· &&& ~~~wordMaskBit index)

/-- `toggle`. -/
def toggle (self : DynamicBitSetUnmanaged) (index : Nat) : DynamicBitSetUnmanaged :=
  self.onMasks fun masks => masks.modify (wordMaskIndex index) (· ^^^ wordMaskBit index)

/-- `zip_masks_raw`. -/
def zipMasksRaw (self other : DynamicBitSetUnmanaged) (f : Word → Word → Word) :
    DynamicBitSetUnmanaged :=
  self.onMasks fun masks => List.zipWith f masks other.masks

/-- `toggle_set`. -/
def toggleSet (self toggles : DynamicBitSetUnmanaged) : DynamicBitSetUnmanaged :=
  if self.bitLength = 0 then self
  else (self.zipMasksRaw toggles fun a b => a ^^^ b).onMasks (trimLast self.bitLength)

/-- `set_all`. -/
def setAll (self : DynamicBitSetUnmanaged) (value : Bool) : DynamicBitSetUnmanaged :=
  if self.bitLength = 0 then self
  else
    (self.onMasks fun masks => masks.map fun _ => boolMaskUsize value).onMasks
      (trimLast self.bitLength)

/-- `toggle_all`. -/
def toggleAll (self : DynamicBitSetUnmanaged) : DynamicBitSetUnmanaged :=
  if self.bitLength = 0 then self
  else (self.onMasks fun masks => masks.map fun mask => ~~~mask).onMasks (trimLast self.bitLength)

/-- `copy_into`. -/
def copyInto (self other : DynamicBitSetUnmanaged) : DynamicBitSetUnmanaged :=
  if self.bitLength = 0 then self
  else (self.zipMasksRaw other fun _ b => b).onMasks (trimLast self.bitLength)

/-- `set_union`. -/
def setUnion (self other : DynamicBitSetUnmanaged) : DynamicBitSetUnmanaged :=
  self.zipMasksRaw other fun a b => a ||| b

/-- `set_intersection`. -/
def setIntersection (self other : DynamicBitSetUnmanaged) : DynamicBitSetUnmanaged :=
  self.zipMasksRaw other fun a b => a &&& b

/-- `set_exclude`. -/
def setExclude (self other : DynamicBitSetUnmanaged) : DynamicBitSetUnmanaged :=
  self.zipMasksRaw other fun a b => a &&& ~~~b

/-- The loop of `find_first_set`. -/
def findFirstIn (offset : Nat) : List Word → Option Nat
  | [] => none
  | mask :: rest =>
      if mask ≠ 0 then some (offset + mask.ctz.toNat) else findFirstIn (offset + 64) rest

/-- `find_first_set`. -/
def findFirstSet (self : DynamicBitSetUnmanaged) : Option Nat := findFirstIn 0 self.masksSlice

/-- The loop of `toggle_first_set`. -/
def toggleFirstIn (offset : Nat) : List Word → Option Nat × List Word
  | [] => (none, [])
  | mask :: rest =>
      if mask ≠ 0 then (some (offset + mask.ctz.toNat), (mask &&& (mask - 1)) :: rest)
      else
        let later := toggleFirstIn (offset + 64) rest
        (later.1, mask :: later.2)

/-- `toggle_first_set`. -/
def toggleFirstSet (self : DynamicBitSetUnmanaged) : Option Nat × DynamicBitSetUnmanaged :=
  ((toggleFirstIn 0 self.masksSlice).1, self.onMasks fun masks => (toggleFirstIn 0 masks).2)

/-- `eql`. -/
def eql (self other : DynamicBitSetUnmanaged) : Bool :=
  if self.bitLength ≠ other.bitLength then false
  else self.masksSlice == other.masksSlice

/-- `subset_of`. -/
def subsetOf (self other : DynamicBitSetUnmanaged) : Bool :=
  if self.bitLength ≠ other.bitLength then false
  else (self.masksSlice.zip other.masksSlice).all fun pair => pair.1 &&& pair.2 == pair.1

end DynamicBitSetUnmanaged

/-- `BitSetIterator`; the two const parameters come with the calls. -/
structure BitSetIterator where
  bitsRemain : Word
  wordsRemain : List Word
  bitOffset : Nat
  lastWordMask : Word

namespace BitSetIterator

/-- `next_word`: not called without a next word. -/
def nextWord (kindSet dirFwd isFirstWord : Bool) (self : BitSetIterator) : BitSetIterator :=
  let word :=
    if dirFwd then self.wordsRemain.headD 0
    else self.wordsRemain.getLastD 0
  let word :=
    if !kindSet then
      if (!dirFwd && isFirstWord) || (dirFwd && self.wordsRemain.length == 1) then
        ~~~word &&& self.lastWordMask
      else ~~~word
    else word
  { self with
    wordsRemain := if dirFwd then self.wordsRemain.tail else self.wordsRemain.dropLast
    bitsRemain := word }

/-- `init`. -/
def init (kindSet dirFwd : Bool) (masks : List Word) (lastWordMask : Word) : BitSetIterator :=
  if masks.isEmpty then
    { bitsRemain := 0, wordsRemain := [], bitOffset := 0, lastWordMask := lastWordMask }
  else
    nextWord kindSet dirFwd true
      { bitsRemain := 0
        wordsRemain := masks
        bitOffset := if dirFwd then 0 else (masks.length - 1) * 64
        lastWordMask := lastWordMask }

theorem nextWord_wordsRemain_length (kindSet dirFwd isFirstWord : Bool) (self : BitSetIterator) :
    (self.nextWord kindSet dirFwd isFirstWord).wordsRemain.length =
      self.wordsRemain.length - 1 := by
  cases dirFwd with
  | true => exact List.length_tail
  | false => exact List.length_dropLast

/-- `next`: the place and what remains. -/
def next (kindSet dirFwd : Bool) (self : BitSetIterator) : Option (Nat × BitSetIterator) :=
  if self.bitsRemain = 0 then
    if self.wordsRemain.isEmpty then none
    else
      next kindSet dirFwd
        { self.nextWord kindSet dirFwd false with
          bitOffset := if dirFwd then self.bitOffset + 64 else self.bitOffset - 64 }
  else if dirFwd then
    some (self.bitsRemain.ctz.toNat + self.bitOffset,
      { self with bitsRemain := self.bitsRemain &&& (self.bitsRemain - 1) })
  else
    let topBit := 63 - self.bitsRemain.clz.toNat
    some (topBit + self.bitOffset,
      { self with bitsRemain := self.bitsRemain &&& (1#64 <<< topBit - 1) })
termination_by self.wordsRemain.length
decreasing_by
  rename_i more
  have shorter := nextWord_wordsRemain_length kindSet dirFwd false self
  have some_ : self.wordsRemain ≠ [] := fun isNil => more (by rw [isNil]; rfl)
  have positive := List.length_pos_of_ne_nil some_
  show (self.nextWord kindSet dirFwd false).wordsRemain.length < self.wordsRemain.length
  omega

/-- `next` called until it answers `None`; `none` when the calls run out first. -/
def exhaust (kindSet dirFwd : Bool) : Nat → BitSetIterator → Option (List Nat)
  | 0, _ => none
  | calls + 1, self =>
      match self.next kindSet dirFwd with
      | none => some []
      | some (index, rest) => (exhaust kindSet dirFwd calls rest).map (index :: ·)

end BitSetIterator

/-- `iterator`. -/
def DynamicBitSetUnmanaged.iterator (self : DynamicBitSetUnmanaged) (kindSet dirFwd : Bool) :
    BitSetIterator :=
  BitSetIterator.init kindSet dirFwd self.masksSlice
    (lastItemMask (numMasks self.bitLength) self.bitLength)

/-! ### Calls on several sets -/

/-- A call on the sets held under numbers. -/
inductive BitSetOp where
  | init (set bitLength : Nat) (fill : Bool) (grant : Grant)
  | resize (set newLen : Nat) (fill : Bool) (grant : Grant)
  | setBit (set index : Nat)
  | unset (set index : Nat)
  | toggle (set index : Nat)
  | setValue (set index : Nat) (value : Bool)
  | setRangeValue (set start stop : Nat) (value : Bool)
  | setAll (set : Nat) (value : Bool)
  | toggleAll (set : Nat)
  | toggleSet (set toggles : Nat)
  | copyInto (set other : Nat)
  | setUnion (set other : Nat)
  | setIntersection (set other : Nat)
  | setExclude (set other : Nat)
  | toggleFirstSet (set : Nat)
  | isSet (set index : Nat)
  | count (set : Nat)
  | findFirstSet (set : Nat)
  | eql (set other : Nat)
  | subsetOf (set other : Nat)
  | iterate (set : Nat) (kindSet dirFwd : Bool)

/-- What a call returns. -/
inductive BitSetAnswer where
  | done
  | allocError
  | bool (value : Bool)
  | number (value : Nat)
  | index (place : Option Nat)
  | indices (places : Option (List Nat))
deriving DecidableEq

/-- The sets under their numbers. -/
abbrev BitSets := Nat → DynamicBitSetUnmanaged

namespace BitSetOp

/-- An allocating call: the new set, or the old one and the error. -/
def allocated (sets : BitSets) (k : Nat) (result : Option DynamicBitSetUnmanaged) :
    BitSetAnswer × BitSets :=
  match result with
  | some fresh => (.done, Function.update sets k fresh)
  | none => (.allocError, sets)

/-- One call. -/
def call (op : BitSetOp) (sets : BitSets) : BitSetAnswer × BitSets :=
  match op with
  | init k bitLength fill grant =>
      allocated sets k
        (if fill then DynamicBitSetUnmanaged.initFull bitLength grant
        else DynamicBitSetUnmanaged.initEmpty bitLength grant)
  | resize k newLen fill grant => allocated sets k ((sets k).resize newLen fill grant)
  | setBit k i => (.done, Function.update sets k ((sets k).set i))
  | unset k i => (.done, Function.update sets k ((sets k).unset i))
  | toggle k i => (.done, Function.update sets k ((sets k).toggle i))
  | setValue k i value => (.done, Function.update sets k ((sets k).setValue i value))
  | setRangeValue k start stop value =>
      (.done, Function.update sets k ((sets k).setRangeValue start stop value))
  | setAll k value => (.done, Function.update sets k ((sets k).setAll value))
  | toggleAll k => (.done, Function.update sets k (sets k).toggleAll)
  | toggleSet k j => (.done, Function.update sets k ((sets k).toggleSet (sets j)))
  | copyInto k j => (.done, Function.update sets k ((sets k).copyInto (sets j)))
  | setUnion k j => (.done, Function.update sets k ((sets k).setUnion (sets j)))
  | setIntersection k j => (.done, Function.update sets k ((sets k).setIntersection (sets j)))
  | setExclude k j => (.done, Function.update sets k ((sets k).setExclude (sets j)))
  | toggleFirstSet k =>
      (.index (sets k).toggleFirstSet.1, Function.update sets k (sets k).toggleFirstSet.2)
  | isSet k i => (.bool ((sets k).isSet i), sets)
  | count k => (.number (sets k).count, sets)
  | findFirstSet k => (.index (sets k).findFirstSet, sets)
  | eql k j => (.bool ((sets k).eql (sets j)), sets)
  | subsetOf k j => (.bool ((sets k).subsetOf (sets j)), sets)
  | iterate k kindSet dirFwd =>
      (.indices (((sets k).iterator kindSet dirFwd).exhaust kindSet dirFwd
        ((sets k).bitLength + 1)), sets)

/-- What the callers keep to: indices and ranges within the length, operands of equal length
(`copy_into` only reads as many words as the destination has). -/
def Allowed (op : BitSetOp) (sets : BitSets) : Prop :=
  match op with
  | setBit k i | unset k i | toggle k i | setValue k i _ | isSet k i => i < (sets k).bitLength
  | setRangeValue k start stop _ => start ≤ stop ∧ stop ≤ (sets k).bitLength
  | toggleSet k j | setUnion k j | setIntersection k j | setExclude k j =>
      (sets j).bitLength = (sets k).bitLength
  | copyInto k j => numMasks (sets k).bitLength ≤ numMasks (sets j).bitLength
  | _ => True

end BitSetOp

end Bunx.Collections
