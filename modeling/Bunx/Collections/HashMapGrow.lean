/-
Module: Bunx.Collections.HashMapGrow
Purpose: Doubling the capacity lays the entries out again in one pass: they stay ordered, no
  gap opens before an entry, and the pass stays within the new slots.
Trusted boundary: none
Main exports: Valid, initCapacity_valid, Relaid, growLoop_spec, grow_spec, ensureLoop_spec
-/
import Bunx.Collections.HashMapSlots

namespace Bunx.Collections

variable {K V : Type} [Inhabited K] [Inhabited V] {hash : K → Nat} {used : Set K}

/-- A map as the calls leave it. -/
structure Valid (hash : K → Nat) (used : Set K) (map : HashMap K V) : Prop where
  shifted : 1 ≤ map.shift ∧ map.shift ≤ 64
  size : map.entries.length = map.capacity + computeOverflow map.capacity map.shift
  slots : Slots hash used map.shift map.entries

/-- Empty slots are ordered. -/
theorem slots_replicate (shift n : Nat) :
    Slots hash used shift (List.replicate n (Entry.empty : Entry K V)) := by
  have isEmpty : ∀ {i : Nat} {a : Entry K V},
      (List.replicate n (Entry.empty : Entry K V))[i]? = some a → a = Entry.empty := by
    intro i a isThere
    rw [List.getElem?_replicate] at isThere
    split at isThere
    · exact (Option.some.inj isThere).symm
    · cases isThere
  have noneFilled : ∀ {i : Nat} {a : Entry K V},
      (List.replicate n (Entry.empty : Entry K V))[i]? = some a → a.isEmpty = false → False := by
    intro i a isThere isFilled
    rw [isEmpty isThere] at isFilled
    exact Bool.false_ne_true (isFilled.symm.trans (beq_self_eq_true emptyHash))
  exact
    { sorted := fun _ isA _ filledA _ => (noneFilled isA filledA).elim
      home := fun isA filledA => (noneFilled isA filledA).elim
      noGap := fun isA filledA _ _ => (noneFilled isA filledA).elim
      keyed := fun isA filledA => (noneFilled isA filledA).elim
      placeholder := fun isA _ => by rw [isEmpty isA]; rfl }

theorem computeShift_pow {n : Nat} (small : n < 64) : computeShift (2 ^ n) = 64 - n := by
  unfold computeShift
  rw [Nat.log_pow (by decide)]
  omega

/-- `init_capacity` at a power of two. -/
theorem initCapacity_valid {n : Nat} (small : n < 64) :
    Valid hash used (HashMap.initCapacity (2 ^ n) : HashMap K V) := by
  have shift : (HashMap.initCapacity (2 ^ n) : HashMap K V).shift = 64 - n :=
    computeShift_pow small
  have capacity : (HashMap.initCapacity (2 ^ n) : HashMap K V).capacity = 2 ^ n := by
    unfold HashMap.capacity
    rw [shift, Nat.sub_sub_self (by omega)]
  refine ⟨by rw [shift]; omega, ?_, slots_replicate _ _⟩
  rw [capacity, HashMap.initCapacity, List.length_replicate]

/-! ### Laying out again -/

/-- A slot past all entries can be written with an empty entry. -/
theorem Slots.setEmpty {shift : Nat} {entries : List (Entry K V)}
    (slots : Slots hash used shift entries) {d : Nat} {a entry : Entry K V}
    (isThere : entries[d]? = some a) (wasEmpty : a.isEmpty = true) (isEmpty : entry.isEmpty = true)
    (isDefault : entry.key = default) : Slots hash used shift (entries.set d entry) := by
  have inside : d < entries.length := (List.getElem?_eq_some_iff.mp isThere).1
  have old : ∀ {i : Nat} {b : Entry K V}, (entries.set d entry)[i]? = some b →
      b.isEmpty = false → entries[i]? = some b := by
    intro i b isB filledB
    by_cases here : d = i
    · subst here
      rw [List.getElem?_set_self inside] at isB
      cases isB
      rw [isEmpty] at filledB
      cases filledB
    · rwa [List.getElem?_set_ne here] at isB
  refine { sorted := ?_, home := ?_, noGap := ?_, keyed := ?_, placeholder := ?_ }
  · intro i j x y lt isX isY filledX filledY
    exact slots.sorted lt (old isX filledX) (old isY filledY) filledX filledY
  · intro i x isX filledX
    exact slots.home (old isX filledX) filledX
  · intro i j x isX filledX near below
    obtain ⟨y, isY, filledY⟩ := slots.noGap (old isX filledX) filledX near below
    refine ⟨y, ?_, filledY⟩
    have other : d ≠ j := by
      rintro rfl
      rw [isThere] at isY
      cases isY
      rw [wasEmpty] at filledY
      cases filledY
    rw [List.getElem?_set_ne other, isY]
  · intro i x isX filledX
    exact slots.keyed (old isX filledX) filledX
  · intro i x isX emptyX
    by_cases here : d = i
    · subst here
      rw [List.getElem?_set_self inside] at isX
      cases isX
      exact isDefault
    · rw [List.getElem?_set_ne here] at isX
      exact slots.placeholder isX emptyX

/-- An entry larger than all others can be written past them, where its run reaches it. -/
theorem Slots.setLast {shift : Nat} {entries : List (Entry K V)}
    (slots : Slots hash used shift entries) {d : Nat} {entry : Entry K V}
    (inside : d < entries.length) (isFilled : entry.isEmpty = false)
    (keyed : entry.key ∈ used ∧ entry.hash = hash entry.key)
    (before : ∀ (i : Nat) (a : Entry K V), entries[i]? = some a → a.isEmpty = false → i < d ∧ a.hash < entry.hash)
    (atHome : homeSlot shift entry.hash ≤ d)
    (run : ∀ x, homeSlot shift entry.hash ≤ x → x < d → Filled entries x) :
    Slots hash used shift (entries.set d entry) := by
  have origin : ∀ {i : Nat} {b : Entry K V}, (entries.set d entry)[i]? = some b →
      (i = d ∧ b = entry) ∨ (i ≠ d ∧ entries[i]? = some b) := by
    intro i b isB
    by_cases here : d = i
    · subst here
      rw [List.getElem?_set_self inside] at isB
      exact .inl ⟨rfl, (Option.some.inj isB).symm⟩
    · rw [List.getElem?_set_ne here] at isB
      exact .inr ⟨Ne.symm here, isB⟩
  have filled : ∀ {x : Nat}, Filled entries x → Filled (entries.set d entry) x := by
    rintro x ⟨b, isB, filledB⟩
    by_cases here : d = x
    · subst here
      exact ⟨entry, List.getElem?_set_self inside, isFilled⟩
    · exact ⟨b, by rw [List.getElem?_set_ne here, isB], filledB⟩
  refine { sorted := ?_, home := ?_, noGap := ?_, keyed := ?_, placeholder := ?_ }
  · intro i j x y lt isX isY filledX filledY
    rcases origin isX with ⟨rfl, rfl⟩ | ⟨_, oldX⟩
    · rcases origin isY with ⟨rfl, rfl⟩ | ⟨_, oldY⟩
      · omega
      · have := (before j y oldY filledY).1
        omega
    · rcases origin isY with ⟨rfl, rfl⟩ | ⟨_, oldY⟩
      · exact (before i x oldX filledX).2
      · exact slots.sorted lt oldX oldY filledX filledY
  · intro i x isX filledX
    rcases origin isX with ⟨rfl, rfl⟩ | ⟨_, oldX⟩
    · exact atHome
    · exact slots.home oldX filledX
  · intro i j x isX filledX near below
    rcases origin isX with ⟨rfl, rfl⟩ | ⟨_, oldX⟩
    · exact filled (run j near below)
    · exact filled (slots.noGap oldX filledX near below)
  · intro i x isX filledX
    rcases origin isX with ⟨rfl, rfl⟩ | ⟨_, oldX⟩
    · exact keyed
    · exact slots.keyed oldX filledX
  · intro i x isX emptyX
    rcases origin isX with ⟨rfl, rfl⟩ | ⟨_, oldX⟩
    · rw [isFilled] at emptyX
      cases emptyX
    · exact slots.placeholder oldX emptyX

/-- The pass of `grow` after `s` of the old slots. -/
structure Relaid (hash : K → Nat) (used : Set K) (shift cap : Nat)
    (old fresh : List (Entry K V)) (s dst : Nat) : Prop where
  slots : Slots hash used shift fresh
  /-- The pass moves at most twice as fast as it reads, -/
  twice : dst ≤ 2 * s
  /-- and is never more than the old capacity ahead. -/
  ahead : dst ≤ cap + s
  /-- After an empty slot it is one behind. -/
  behind : ∀ a : Entry K V, 0 < s → old[s - 1]? = some a → a.isEmpty = true → dst + 1 ≤ 2 * s
  unwritten : ∀ (x : Nat) (a : Entry K V), dst ≤ x → fresh[x]? = some a → a.isEmpty = true
  same : ∀ a : Entry K V, a.isEmpty = false →
    ((∃ i, i < s ∧ old[i]? = some a) ↔ ∃ j : Nat, fresh[j]? = some a)
  /-- The next entry finds no gap behind it. -/
  joined : ∀ a : Entry K V, old[s]? = some a → a.isEmpty = false →
    ∀ x, homeSlot shift a.hash ≤ x → x < dst → Filled fresh x

/-- The homes under the new shift are about twice the old ones. -/
def Doubles (shift shift' cap : Nat) (old : List (Entry K V)) : Prop :=
  ∀ (s : Nat) (a : Entry K V), old[s]? = some a → a.isEmpty = false →
    2 * homeSlot shift a.hash ≤ homeSlot shift' a.hash ∧
      homeSlot shift' a.hash ≤ 2 * homeSlot shift a.hash + 1 ∧ homeSlot shift' a.hash < 2 * cap

variable {shift shift' cap : Nat} {old fresh : List (Entry K V)} {s dst : Nat}

/-- One entry laid out. -/
theorem Relaid.entry (oldSlots : Slots hash used shift old)
    (doubles : Doubles shift shift' cap old) (relaid : Relaid hash used shift' cap old fresh s dst)
    {entry : Entry K V} (isEntry : old[s]? = some entry) (isFilled : entry.isEmpty = false)
    {d : Nat} (isPlace : d = max (homeSlot shift' entry.hash) dst) (inside : d < fresh.length) :
    Relaid hash used shift' cap old (fresh.set d entry) (s + 1) (d + 1) := by
  obtain ⟨least, most, bounded⟩ := doubles s entry isEntry isFilled
  have atHome := oldSlots.home isEntry isFilled
  have twice := relaid.twice
  have ahead := relaid.ahead
  have before : ∀ (i : Nat) (a : Entry K V), fresh[i]? = some a → a.isEmpty = false → i < dst ∧ a.hash < entry.hash := by
    intro i a isA filledA
    constructor
    · by_contra past
      have := relaid.unwritten i a (Nat.le_of_not_lt past) isA
      rw [filledA] at this
      cases this
    · obtain ⟨j, isBefore, isOld⟩ := (relaid.same a filledA).mpr ⟨i, isA⟩
      exact oldSlots.sorted isBefore isOld isEntry filledA isFilled
  have run : ∀ x, homeSlot shift' entry.hash ≤ x → x < d → Filled fresh x := by
    intro x near below
    exact relaid.joined entry isEntry isFilled x near (by omega)
  have filled : ∀ {x : Nat}, Filled fresh x → Filled (fresh.set d entry) x := by
    rintro x ⟨b, isB, filledB⟩
    by_cases here : d = x
    · subst here
      exact ⟨entry, List.getElem?_set_self inside, isFilled⟩
    · exact ⟨b, by rw [List.getElem?_set_ne here, isB], filledB⟩
  refine ⟨?_, by omega, by omega, ?_, ?_, ?_, ?_⟩
  · apply relaid.slots.setLast inside isFilled (oldSlots.keyed isEntry isFilled) _ (by omega) run
    intro i a isA filledA
    have := before i a isA filledA
    exact ⟨by omega, this.2⟩
  · intro a _ isA emptyA
    rw [Nat.add_sub_cancel, isEntry] at isA
    cases isA
    rw [isFilled] at emptyA
    cases emptyA
  · intro x a past isA
    rw [List.getElem?_set_ne (by omega)] at isA
    exact relaid.unwritten x a (by omega) isA
  · intro a filledA
    constructor
    · rintro ⟨i, isBefore, isA⟩
      rcases Nat.eq_or_lt_of_le (Nat.le_of_lt_succ isBefore) with rfl | earlier
      · rw [isEntry] at isA
        cases isA
        exact ⟨d, List.getElem?_set_self inside⟩
      · obtain ⟨j, isJ⟩ := (relaid.same a filledA).mp ⟨i, earlier, isA⟩
        have := (before j a isJ filledA).1
        exact ⟨j, by rw [List.getElem?_set_ne (by omega), isJ]⟩
    · rintro ⟨j, isJ⟩
      by_cases here : d = j
      · subst here
        rw [List.getElem?_set_self inside] at isJ
        cases isJ
        exact ⟨s, Nat.lt_succ_self s, isEntry⟩
      · rw [List.getElem?_set_ne here] at isJ
        obtain ⟨i, isBefore, isA⟩ := (relaid.same a filledA).mpr ⟨j, isJ⟩
        exact ⟨i, Nat.lt_succ_of_lt isBefore, isA⟩
  · intro a isA filledA x near below
    have smaller := oldSlots.sorted (Nat.lt_succ_self s) isEntry isA isFilled filledA
    have monotone := homeSlot_mono shift' (Nat.le_of_lt smaller)
    by_cases here : x = d
    · rw [here]
      exact ⟨entry, List.getElem?_set_self inside, isFilled⟩
    · exact filled (run x (by omega) (by omega))

/-- One empty slot copied. -/
theorem Relaid.empty (oldSlots : Slots hash used shift old)
    (doubles : Doubles shift shift' cap old) (relaid : Relaid hash used shift' cap old fresh s dst)
    {entry : Entry K V} (isEntry : old[s]? = some entry) (isEmpty : entry.isEmpty = true)
    (inside : dst < fresh.length) :
    Relaid hash used shift' cap old (fresh.set dst entry) (s + 1) (dst + 1) := by
  have twice := relaid.twice
  have ahead := relaid.ahead
  have isThere : fresh[dst]? = some fresh[dst] := List.getElem?_eq_getElem inside
  have wasEmpty := relaid.unwritten dst _ (Nat.le_refl dst) isThere
  refine ⟨relaid.slots.setEmpty isThere wasEmpty isEmpty (oldSlots.placeholder isEntry isEmpty),
    by omega, by omega, fun _ _ _ _ => by omega, ?_, ?_, ?_⟩
  · intro x a past isA
    rw [List.getElem?_set_ne (by omega)] at isA
    exact relaid.unwritten x a (by omega) isA
  · intro a filledA
    constructor
    · rintro ⟨i, isBefore, isA⟩
      have earlier : i < s := by
        rcases Nat.eq_or_lt_of_le (Nat.le_of_lt_succ isBefore) with rfl | earlier
        · rw [isEntry] at isA
          cases isA
          rw [filledA] at isEmpty
          cases isEmpty
        · exact earlier
      obtain ⟨j, isJ⟩ := (relaid.same a filledA).mp ⟨i, earlier, isA⟩
      have other : dst ≠ j := by
        rintro rfl
        rw [isThere] at isJ
        rw [Option.some.inj isJ, filledA] at wasEmpty
        cases wasEmpty
      exact ⟨j, by rw [List.getElem?_set_ne other, isJ]⟩
    · rintro ⟨j, isJ⟩
      by_cases here : dst = j
      · subst here
        rw [List.getElem?_set_self inside] at isJ
        cases isJ
        rw [filledA] at isEmpty
        cases isEmpty
      · rw [List.getElem?_set_ne here] at isJ
        obtain ⟨i, isBefore, isA⟩ := (relaid.same a filledA).mpr ⟨j, isJ⟩
        exact ⟨i, Nat.lt_succ_of_lt isBefore, isA⟩
  · -- the entry after an empty slot is at home, and its new home is further on
    intro a isA filledA x near below
    have atHome : homeSlot shift a.hash = s + 1 := by
      apply Nat.le_antisymm (oldSlots.home isA filledA)
      by_contra early
      obtain ⟨b, isB, filledB⟩ := oldSlots.noGap isA filledA
        (Nat.le_of_lt_succ (Nat.lt_of_not_le early)) (Nat.lt_succ_self s)
      rw [isEntry] at isB
      cases isB
      rw [filledB] at isEmpty
      cases isEmpty
    have := (doubles (s + 1) a isA filledA).1
    omega

/-- The whole pass stays within the new slots. -/
theorem growLoop_spec (oldSlots : Slots hash used shift old)
    (doubles : Doubles shift shift' cap old) :
    ∀ (rest : List (Entry K V)) {fresh : List (Entry K V)} {s dst : Nat},
      old.drop s = rest → s + rest.length = old.length → cap + old.length ≤ fresh.length →
      Relaid hash used shift' cap old fresh s dst →
      ∃ final last, HashMap.growLoop shift' rest fresh dst = some final ∧
        final.length = fresh.length ∧ Relaid hash used shift' cap old final old.length last := by
  intro rest
  induction rest with
  | nil =>
      intro fresh s dst _ done _ relaid
      rw [List.length_nil, Nat.add_zero] at done
      subst done
      exact ⟨fresh, dst, rfl, rfl, relaid⟩
  | cons entry rest ih =>
      intro fresh s dst isRest size room relaid
      have isEntry : old[s]? = some entry := by
        have := congrArg (fun list => list[0]?) isRest
        simpa using this
      have isNext : old.drop (s + 1) = rest := by
        rw [← List.tail_drop, isRest, List.tail_cons]
      rw [List.length_cons] at size
      have ahead := relaid.ahead
      rw [HashMap.growLoop]
      cases isEmpty : entry.isEmpty with
      | true =>
          rw [Bool.not_true, if_neg Bool.false_ne_true]
          have place : (if 0 ≥ dst then 0 else dst) = dst := by
            split
            · omega
            · rfl
          have inside : dst < fresh.length := by omega
          rw [place, if_pos inside]
          obtain ⟨final, last, isFinal, long, done⟩ := ih isNext (by omega)
            (by rw [List.length_set]; exact room)
            (relaid.empty oldSlots doubles isEntry isEmpty inside)
          exact ⟨final, last, isFinal, by rw [long, List.length_set], done⟩
      | false =>
          rw [Bool.not_false, if_pos rfl]
          have place : (if homeSlot shift' entry.hash ≥ dst then homeSlot shift' entry.hash
              else dst) = max (homeSlot shift' entry.hash) dst := by
            split
            · omega
            · omega
          have atHome := oldSlots.home isEntry isEmpty
          obtain ⟨_, most, bounded⟩ := doubles s entry isEntry isEmpty
          have inside : max (homeSlot shift' entry.hash) dst < fresh.length := by omega
          rw [place, if_pos inside]
          obtain ⟨final, last, isFinal, long, done⟩ := ih isNext (by omega)
            (by rw [List.length_set]; exact room)
            (relaid.entry oldSlots doubles isEntry isEmpty rfl inside)
          exact ⟨final, last, isFinal, by rw [long, List.length_set], done⟩

/-- Before the pass. -/
theorem relaid_start (shift' cap n : Nat) (old : List (Entry K V)) :
    Relaid hash used shift' cap old (List.replicate n (Entry.empty : Entry K V)) 0 0 where
  slots := slots_replicate shift' n
  twice := Nat.le_refl 0
  ahead := Nat.zero_le _
  behind := fun _ positive => absurd positive (Nat.lt_irrefl 0)
  unwritten := by
    intro x a _ isThere
    rw [List.getElem?_replicate] at isThere
    split at isThere
    · cases isThere
      exact beq_self_eq_true _
    · cases isThere
  same := by
    intro a isFilled
    constructor
    · rintro ⟨i, isBefore, _⟩
      exact absurd isBefore (Nat.not_lt_zero i)
    · rintro ⟨j, isThere⟩
      rw [List.getElem?_replicate] at isThere
      split at isThere
      · cases isThere
        exact absurd (isFilled.symm.trans (beq_self_eq_true emptyHash)) Bool.false_ne_true
      · cases isThere
  joined := fun _ _ _ x _ below => absurd below (Nat.not_lt_zero x)

/-! ### Growing -/

variable {map grown : HashMap K V}

omit [Inhabited V] in
/-- With one bit less shifted out, a home is doubled. -/
theorem Valid.doubles (hashing : Hashing hash used) (valid : Valid hash used map) :
    Doubles map.shift (map.shift - 1) map.capacity map.entries := by
  intro s a isThere isFilled
  obtain ⟨isUsed, isHash⟩ := valid.slots.keyed isThere isFilled
  have small : a.hash < 2 ^ 64 := by
    have := hashing.small _ isUsed
    rw [isHash]
    unfold emptyHash at this
    omega
  have atHome := valid.slots.home isThere isFilled
  have inside : s < map.entries.length := (List.getElem?_eq_some_iff.mp isThere).1
  obtain ⟨least, most⟩ := valid.shifted
  have power : 0 < 2 ^ (map.shift - 1) := Nat.two_pow_pos _
  unfold homeSlot at atHome ⊢
  rw [Nat.shiftRight_eq_div_pow] at atHome
  rw [Nat.shiftRight_eq_div_pow, Nat.shiftRight_eq_div_pow,
    Nat.mod_eq_of_lt (show map.shift - 1 < 64 by omega)]
  have bounded : a.hash / 2 ^ (map.shift - 1) < 2 * map.capacity := by
    apply (Nat.div_lt_iff_lt_mul power).mpr
    have whole : 2 * map.capacity * 2 ^ (map.shift - 1) = 2 ^ 64 := by
      unfold HashMap.capacity
      rw [← Nat.pow_succ', ← Nat.pow_add]
      congr 1
      omega
    rw [whole]
    exact small
  rcases Nat.eq_or_lt_of_le most with full | small'
  · -- one slot, and all of the hash is its home
    have size := valid.size
    have oneSlot : map.entries.length = 1 := by
      simp [size, HashMap.capacity, computeOverflow, full]
    rw [full, Nat.mod_self, Nat.pow_zero, Nat.div_one] at atHome ⊢
    have isZero : a.hash = 0 := by omega
    rw [isZero, Nat.zero_div]
    rw [isZero, Nat.zero_div] at bounded
    exact ⟨Nat.le_refl 0, Nat.zero_le _, bounded⟩
  · have half : a.hash / 2 ^ (map.shift % 64) = a.hash / 2 ^ (map.shift - 1) / 2 := by
      rw [Nat.mod_eq_of_lt small', Nat.div_div_eq_div_mul, ← Nat.pow_succ]
      congr 2
      omega
    rw [half]
    omega

omit [Inhabited V] in
/-- Twice the capacity, under the shift that is one less. -/
theorem Valid.doubled (valid : Valid hash used map) (room : 1 < map.shift) :
    map.capacity * 2 % 2 ^ 64 = 2 ^ (65 - map.shift) ∧
      computeShift (2 ^ (65 - map.shift)) = map.shift - 1 := by
  have most := valid.shifted.2
  constructor
  · have small : 2 ^ (65 - map.shift) < 2 ^ 64 := Nat.pow_lt_pow_right (by decide) (by omega)
    unfold HashMap.capacity
    rw [← Nat.pow_succ, show (64 - map.shift).succ = 65 - map.shift by omega,
      Nat.mod_eq_of_lt small]
  · rw [computeShift_pow (by omega)]
    omega

/-- `grow` never writes past the new slots, and doubles the capacity. -/
theorem grow_spec (hashing : Hashing hash used) (valid : Valid hash used map)
    (room : 1 < map.shift) :
    ∃ grown, map.grow = some grown ∧ Valid hash used grown ∧ grown.len = map.len ∧
      ∀ m, Holds map.entries m → Holds grown.entries m := by
  obtain ⟨isDoubled, isShift⟩ := valid.doubled room
  have most := valid.shifted.2
  have positive : 2 ^ (65 - map.shift) ≠ 0 := Nat.ne_of_gt (Nat.two_pow_pos _)
  have twice : 2 ^ (65 - map.shift) = 2 * map.capacity := by
    unfold HashMap.capacity
    rw [← Nat.pow_succ']
    congr 1
    omega
  have all : map.entries.take (map.capacity + computeOverflow map.capacity map.shift) =
      map.entries := by
    rw [← valid.size, List.take_length]
  -- the new slots have room for the old ones
  have room' : map.capacity + map.entries.length ≤
      2 ^ (65 - map.shift) + computeOverflow (2 ^ (65 - map.shift)) (map.shift - 1) := by
    rw [valid.size, twice]
    unfold computeOverflow
    have : map.capacity / 10 ≤ 2 * map.capacity / 10 := Nat.div_le_div_right (by omega)
    omega
  obtain ⟨final, last, isFinal, long, done⟩ := growLoop_spec valid.slots (valid.doubles hashing)
    map.entries List.drop_zero (Nat.zero_add _)
    (by rw [List.length_replicate]; exact room')
    (relaid_start (map.shift - 1) map.capacity
      (2 ^ (65 - map.shift) + computeOverflow (2 ^ (65 - map.shift)) (map.shift - 1)) map.entries)
  rw [List.length_replicate] at long
  refine ⟨{ map with entries := final, shift := map.shift - 1 }, ?_, ⟨?_, ?_, done.slots⟩, rfl, ?_⟩
  · unfold HashMap.grow
    dsimp only
    rw [isDoubled, if_neg positive, all]
    unfold HashMap.initCapacity
    dsimp only
    rw [isShift, isFinal]
    rfl
  · show 1 ≤ map.shift - 1 ∧ map.shift - 1 ≤ 64
    omega
  · show final.length = 2 ^ (64 - (map.shift - 1)) +
      computeOverflow (2 ^ (64 - (map.shift - 1))) (map.shift - 1)
    rw [long, show 64 - (map.shift - 1) = 65 - map.shift by omega]
  · intro m holds key value
    rw [holds key value]
    constructor
    · rintro ⟨i, a, isA, filledA, isKey, isValue⟩
      have isIndex : i < map.entries.length := (List.getElem?_eq_some_iff.mp isA).1
      obtain ⟨j, isJ⟩ := (done.same a filledA).mp ⟨i, isIndex, isA⟩
      exact ⟨j, a, isJ, filledA, isKey, isValue⟩
    · rintro ⟨j, a, isA, filledA, isKey, isValue⟩
      obtain ⟨i, _, isI⟩ := (done.same a filledA).mpr ⟨j, isA⟩
      exact ⟨i, a, isI, filledA, isKey, isValue⟩

/-- A capacity of 2^63 cannot be doubled. -/
theorem grow_full (valid : Valid hash used map) (full : ¬1 < map.shift) : map.grow = none := by
  have least := valid.shifted.1
  have isOne : map.shift = 1 := by omega
  unfold HashMap.grow HashMap.capacity
  rw [isOne]
  rfl

/-- Growing as often as needed keeps the entries. -/
theorem ensureLoop_spec (hashing : Hashing hash used) (maxLoad count : Nat) :
    ∀ (doublings : Nat) {map grown : HashMap K V}, Valid hash used map →
      HashMap.ensureLoop maxLoad count doublings map = some grown →
      Valid hash used grown ∧ grown.len = map.len ∧
        ∀ m, Holds map.entries m → Holds grown.entries m := by
  intro doublings
  induction doublings with
  | zero =>
      intro map grown _ returned
      cases returned
  | succ doublings ih =>
      intro map grown valid returned
      rw [HashMap.ensureLoop] at returned
      by_cases enough : count ≤ map.capacity * maxLoad % 2 ^ 64 / 100
      · rw [if_pos enough] at returned
        cases returned
        exact ⟨valid, rfl, fun _ holds => holds⟩
      · rw [if_neg enough] at returned
        by_cases room : 1 < map.shift
        · obtain ⟨next, isNext, validNext, sameLen, kept⟩ := grow_spec hashing valid room
          rw [isNext, Option.bind_some] at returned
          obtain ⟨validGrown, sameLen', kept'⟩ := ih validNext returned
          exact ⟨validGrown, sameLen'.trans sameLen, fun m holds => kept' m (kept m holds)⟩
        · rw [grow_full valid room, Option.bind_none] at returned
          cases returned

end Bunx.Collections
