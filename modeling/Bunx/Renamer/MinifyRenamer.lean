/-
Module: Bunx.Renamer.MinifyRenamer
Purpose: The renamer that gives short names to slots of symbols, the most used ones first.
Trusted boundary: none
Main exports: NameMinifier, computeInitialReservedNames, computeReservedNamesForScope, SymbolSlot,
  assignNamesByFrequency
-/
import Bunx.Renamer.NumberRenamer
import Mathlib.Data.List.Nodup

namespace Bunx.Renamer

/-! ### Names of numbers -/

structure NameMinifier where
  head : Name
  tail : Name

def charFreqCount : Nat := 64

/-- The characters of a name after the first one; none where a slice is out of bounds. -/
def tailName (tail : Name) : Nat → Option Name
  | 0 => some []
  | i + 1 => do
      let c ← tail[i % charFreqCount]?
      let rest ← tailName tail (i / charFreqCount)
      return c :: rest
termination_by i => i
decreasing_by exact Nat.lt_succ_of_le (Nat.div_le_self i charFreqCount)

def NameMinifier.numberToMinifiedName (minifier : NameMinifier) (i : Nat) : Option Name := do
  let c ← minifier.head[i % 54]?
  let rest ← tailName minifier.tail (i / 54)
  return c :: rest

def defaultHead : Name := text "abcdefghijklmnopqrstuvwxyzABCDEFGHIJKLMNOPQRSTUVWXYZ_$"

def defaultTail : Name := text "abcdefghijklmnopqrstuvwxyzABCDEFGHIJKLMNOPQRSTUVWXYZ0123456789_$"

/-! ### Reserved names -/

def keywords : List Name :=
  [text "break", text "case", text "catch", text "class", text "const", text "continue",
    text "debugger", text "default", text "delete", text "do", text "else", text "enum",
    text "export", text "extends", text "false", text "finally", text "for", text "function",
    text "if", text "import", text "in", text "instanceof", text "new", text "null",
    text "return", text "super", text "switch", text "this", text "throw", text "true",
    text "try", text "typeof", text "var", text "void", text "while", text "with"]

def keyword (name : Name) : Bool := keywords.contains name

inductive OutputFormat where
  | esm
  | iife
  | cjs
  | internalBakeDev
deriving DecidableEq

def computeInitialReservedNames (outputFormat : OutputFormat) : List Name :=
  keywords ++ strictModeReservedWords ++
    (if outputFormat = .cjs then [text "exports", text "module"] else []) ++
    [text "Promise", text "Require"]

/-- A scope of the source, whether there is a direct `eval` in it or in one of those in it. -/
inductive EvalScope where
  | mk (members generated : List Ref) (containsDirectEval : Bool) (children : List EvalScope)

def EvalScope.containsDirectEval : EvalScope → Bool
  | .mk _ _ containsDirectEval _ => containsDirectEval

section Reserved

variable (symbols : SymbolMap)

/-- The names of the symbols that are unbound or cannot be renamed. -/
def fixedNames (refs : List Ref) : List Name :=
  (refs.filter fun ref => (symbols.get ref).slotNamespace = .mustNotBeRenamed).map fun ref =>
    (symbols.get ref).originalName

mutual

def computeReservedNamesForScope : EvalScope → List Name
  | .mk members generated containsDirectEval children =>
      fixedNames symbols members ++ fixedNames symbols generated ++
        if containsDirectEval then computeReservedNamesForChildren children else []

/-- The scopes with the direct `eval`. -/
def computeReservedNamesForChildren : List EvalScope → List Name
  | [] => []
  | child :: children =>
      (if child.containsDirectEval then computeReservedNamesForScope child else []) ++
        computeReservedNamesForChildren children

end

/-- The names that are reserved in a chunk of files. -/
def reservedNames (outputFormat : OutputFormat) (moduleScopes : List EvalScope) : List Name :=
  computeInitialReservedNames outputFormat ++
    moduleScopes.flatMap (computeReservedNamesForScope symbols)

end Reserved

/-! ### Slots -/

structure SymbolSlot where
  name : Name
  count : Nat
  needsCapitalForJsx : Bool
deriving DecidableEq

structure SlotAndCount where
  slot : Nat
  count : Nat

/-- By descending count, then by ascending slot. -/
def SlotAndCount.le (a b : SlotAndCount) : Bool :=
  b.count < a.count || (b.count == a.count && a.slot ≤ b.slot)

def sortedSlots (slots : List SymbolSlot) : List SlotAndCount :=
  (slots.mapIdx fun i slot => { slot := i, count := slot.count : SlotAndCount }).insertionSort
    fun a b => SlotAndCount.le a b

def slotNamespaces : List SlotNamespace := [.default, .label, .privateName, .mangledProp]

/-- `name_buf[0] >= b'a' && name_buf[0] <= b'z'`; a name is never empty. -/
def startsLower : Name → Bool
  | [] => false
  | c :: _ => 97 ≤ c && c ≤ 122

section Assign

variable (minifier : NameMinifier) (reserved : List Name) (fuel : Nat)

/-- The loops that go on to the next name; `fuel` bounds their turns. -/
def renumberWhile (bad : Name → Bool) : Nat → Name × Nat → Option (Name × Nat)
  | 0, _ => none
  | fuel + 1, (name, nextName) =>
      if bad name then do
        let name ← minifier.numberToMinifiedName nextName
        renumberWhile bad fuel (name, nextName + 1)
      else some (name, nextName)

/-- The name of a slot, and the number of the next name. -/
def slotName (ns : SlotNamespace) (needsCapitalForJsx : Bool) (nextName : Nat) :
    Option (Name × Nat) := do
  let name ← minifier.numberToMinifiedName nextName
  let nextName := nextName + 1
  match ns with
  | .default =>
      let (name, nextName) ← renumberWhile minifier reserved.contains fuel (name, nextName)
      -- The name that follows is not looked up again.
      if needsCapitalForJsx then renumberWhile minifier startsLower fuel (name, nextName)
      else return (name, nextName)
  | .label => renumberWhile minifier keyword fuel (name, nextName)
  | .privateName => return (text "#" ++ name, nextName)
  | _ => return (name, nextName)

def assignSlot (ns : SlotNamespace) (state : List SymbolSlot × Nat) (slot : Nat) :
    Option (List SymbolSlot × Nat) := do
  let data ← state.1[slot]?
  let (name, nextName) ← slotName minifier reserved fuel ns data.needsCapitalForJsx state.2
  return (state.1.set slot { data with name }, nextName)

def assignNamespace (ns : SlotNamespace) (slots : List SymbolSlot) :
    Option (List SymbolSlot) := do
  let (slots, _) ← ((sortedSlots slots).map SlotAndCount.slot).foldlM
    (assignSlot minifier reserved fuel ns) (slots, 0)
  return slots

def assignNamesByFrequency (slots : SlotNamespace → List SymbolSlot) :
    Option (SlotNamespace → List SymbolSlot) :=
  slotNamespaces.foldlM (fun slots ns => do
    let assigned ← assignNamespace minifier reserved fuel ns (slots ns)
    return Function.update slots ns assigned) slots

end Assign

/-! ### Different numbers have different names -/

theorem tailName_injective {tail : Name} (distinct : tail.Nodup) {i j : Nat} {name : Name}
    (isName : tailName tail i = some name) (isName' : tailName tail j = some name) : i = j := by
  induction i using Nat.strongRecOn generalizing j name with
  | _ i ih =>
      cases i with
      | zero =>
          cases j with
          | zero => rfl
          | succ j =>
              rw [tailName] at isName
              rw [tailName] at isName'
              cases isName
              obtain ⟨c, _, isName'⟩ := Option.bind_eq_some_iff.mp isName'
              obtain ⟨rest, _, isName'⟩ := Option.bind_eq_some_iff.mp isName'
              cases isName'
      | succ i =>
          rw [tailName] at isName
          obtain ⟨c, isHead, isName⟩ := Option.bind_eq_some_iff.mp isName
          obtain ⟨rest, isRest, isName⟩ := Option.bind_eq_some_iff.mp isName
          cases isName
          cases j with
          | zero =>
              rw [tailName] at isName'
              cases isName'
          | succ j =>
              rw [tailName] at isName'
              obtain ⟨c', isHead', isName'⟩ := Option.bind_eq_some_iff.mp isName'
              obtain ⟨rest', isRest', isName'⟩ := Option.bind_eq_some_iff.mp isName'
              cases isName'
              have sameRest := ih (i / charFreqCount)
                (Nat.lt_succ_of_le (Nat.div_le_self i _)) isRest isRest'
              have sameHead : i % charFreqCount = j % charFreqCount := by
                obtain ⟨inside, isHead⟩ := List.getElem?_eq_some_iff.mp isHead
                obtain ⟨inside', isHead'⟩ := List.getElem?_eq_some_iff.mp isHead'
                exact (distinct.getElem_inj_iff).mp (isHead.trans isHead'.symm)
              rw [← Nat.div_add_mod i charFreqCount, ← Nat.div_add_mod j charFreqCount, sameRest,
                sameHead]

/-- Characters that are all different give names that are. -/
theorem numberToMinifiedName_injective {minifier : NameMinifier} (head : minifier.head.Nodup)
    (tail : minifier.tail.Nodup) {i j : Nat} {name : Name}
    (isName : minifier.numberToMinifiedName i = some name)
    (isName' : minifier.numberToMinifiedName j = some name) : i = j := by
  unfold NameMinifier.numberToMinifiedName at isName isName'
  obtain ⟨c, isHead, isName⟩ := Option.bind_eq_some_iff.mp isName
  obtain ⟨rest, isRest, isName⟩ := Option.bind_eq_some_iff.mp isName
  cases isName
  obtain ⟨c', isHead', isName'⟩ := Option.bind_eq_some_iff.mp isName'
  obtain ⟨rest', isRest', isName'⟩ := Option.bind_eq_some_iff.mp isName'
  cases isName'
  have sameRest := tailName_injective tail isRest isRest'
  have sameHead : i % 54 = j % 54 := by
    obtain ⟨inside, isHead⟩ := List.getElem?_eq_some_iff.mp isHead
    obtain ⟨inside', isHead'⟩ := List.getElem?_eq_some_iff.mp isHead'
    exact (head.getElem_inj_iff).mp (isHead.trans isHead'.symm)
  rw [← Nat.div_add_mod i 54, ← Nat.div_add_mod j 54, sameRest, sameHead]

theorem tailName_total {tail : Name} (long : charFreqCount ≤ tail.length) (i : Nat) :
    ∃ name, tailName tail i = some name := by
  induction i using Nat.strongRecOn with
  | _ i ih =>
      cases i with
      | zero => exact ⟨[], by rw [tailName]⟩
      | succ i =>
          obtain ⟨rest, isRest⟩ := ih (i / charFreqCount)
            (Nat.lt_succ_of_le (Nat.div_le_self i _))
          have inside : i % charFreqCount < tail.length :=
            Nat.lt_of_lt_of_le (Nat.mod_lt _ (by decide)) long
          refine ⟨tail[i % charFreqCount] :: rest, ?_⟩
          rw [tailName, List.getElem?_eq_getElem inside, isRest]
          rfl

/-- Enough characters give every number a name. -/
theorem numberToMinifiedName_total {minifier : NameMinifier} (head : 54 ≤ minifier.head.length)
    (tail : charFreqCount ≤ minifier.tail.length) (i : Nat) :
    ∃ name, minifier.numberToMinifiedName i = some name := by
  obtain ⟨rest, isRest⟩ := tailName_total tail (i / 54)
  have inside : i % 54 < minifier.head.length := Nat.lt_of_lt_of_le (Nat.mod_lt _ (by decide)) head
  refine ⟨minifier.head[i % 54] :: rest, ?_⟩
  unfold NameMinifier.numberToMinifiedName
  rw [List.getElem?_eq_getElem inside, isRest]
  rfl

/-! ### What is reserved -/

theorem keyword_reserved {symbols : SymbolMap} {outputFormat : OutputFormat}
    {moduleScopes : List EvalScope} {name : Name} (isKeyword : keyword name = true) :
    name ∈ reservedNames symbols outputFormat moduleScopes := by
  unfold reservedNames computeInitialReservedNames
  simp only [List.mem_append]
  exact .inl (.inl (.inl (.inl (List.contains_iff_mem.mp isKeyword))))

/-- The symbols of the scope of a file that cannot be renamed keep their names to themselves. -/
theorem fixed_reserved {symbols : SymbolMap} {outputFormat : OutputFormat}
    {moduleScopes : List EvalScope} {members generated : List Ref} {containsDirectEval : Bool}
    {children : List EvalScope}
    (isFile : .mk members generated containsDirectEval children ∈ moduleScopes) {ref : Ref}
    (listed : ref ∈ members ++ generated)
    (fixed : (symbols.get ref).slotNamespace = .mustNotBeRenamed) :
    (symbols.get ref).originalName ∈ reservedNames symbols outputFormat moduleScopes := by
  have isFixed {refs : List Ref} (member : ref ∈ refs) :
      (symbols.get ref).originalName ∈ fixedNames symbols refs :=
    List.mem_map.mpr ⟨ref, List.mem_filter.mpr ⟨member, decide_eq_true fixed⟩, rfl⟩
  apply List.mem_append_right
  apply List.mem_flatMap.mpr
  refine ⟨_, isFile, ?_⟩
  rw [computeReservedNamesForScope]
  apply List.mem_append_left
  rcases List.mem_append.mp listed with member | member
  · exact List.mem_append_left _ (isFixed member)
  · exact List.mem_append_right _ (isFixed member)

end Bunx.Renamer
