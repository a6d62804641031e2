/-
Module: Bunx.IsolatedInstall.SccCorrect
Purpose: What the three passes together give an entry: no hash exactly when it reaches an
  ineligible entry, else one that is a function of its component and the final hashes of the
  dependencies.
Trusted boundary: none
Main exports: sccHash, sccHash_eq, aloneHash, Sound, finish_sound, Placed, emission_placed,
  loop_sweep, HashedStore, exists_hashed, entry_hash_ne_zero
-/
import Bunx.IsolatedInstall.DfsCorrect
import Bunx.Lib.TarjanCorrect

namespace Bunx.IsolatedInstall

open Bunx.Lib

variable {hasher : Hasher} {n : Nat} {store : Store n}

/-! ### One component -/

/-- The digest of a dependency that leaves the component. -/
def extKey (hasher : Hasher) (hashes : Fin n → UInt64) (dep : DependenciesItem n) : UInt64 :=
  hasher.final_ (fold hasher (hasher.init 0) dep.nameHash (hashes dep.entryId))

/-- The digest of a member. -/
def memberKey (hasher : Hasher) (store : Store n) (m : Fin n) : UInt64 :=
  hasher.final_ (begin hasher store 0 m)

theorem mem_put {keys : List UInt64} {key k : UInt64} : k ∈ put keys key ↔ k ∈ keys ∨ k = key := by
  rw [put]
  split
  · next member =>
      constructor
      · exact .inl
      · rintro (old | rfl)
        · exact old
        · exact member
  · simp

theorem put_nodup {keys : List UInt64} (distinct : keys.Nodup) (key : UInt64) :
    (put keys key).Nodup := by
  rw [put]
  split
  · exact distinct
  · next new =>
      rw [List.nodup_append]
      refine ⟨distinct, List.nodup_singleton _, ?_⟩
      rintro a isOld b isNew rfl
      rw [List.mem_singleton] at isNew
      exact new (isNew ▸ isOld)

/-- What was added to `g` by dependencies that leave the component. -/
structure Gathered.Added (hasher : Hasher) (hashes : Fin n → UInt64) (g g' : Gathered)
    (outgoing : DependenciesItem n → Prop) : Prop where
  sccExt : ∀ k, k ∈ g'.sccExt ↔ k ∈ g.sccExt ∨ ∃ dep, outgoing dep ∧ k = extKey hasher hashes dep
  distinct : g.sccExt.Nodup → g'.sccExt.Nodup
  anyIneligible : g'.anyIneligible = true ↔
    g.anyIneligible = true ∨ ∃ dep, outgoing dep ∧ hashes dep.entryId = 0

theorem gatherDeps_added (hashes : Fin n → UInt64) (members : List (Fin n))
    (deps : List (DependenciesItem n)) (g : Gathered) :
    (deps.foldl (gatherDep hasher hashes members) g).memberSub = g.memberSub ∧
    Gathered.Added hasher hashes g (deps.foldl (gatherDep hasher hashes members) g)
      fun dep => dep ∈ deps ∧ dep.entryId ∉ members := by
  induction deps generalizing g with
  | nil => exact ⟨rfl, by simp, id, by simp⟩
  | cons dep more ih =>
      obtain ⟨same, sccExt, distinct, any⟩ :=
        ih (gatherDep hasher hashes members g dep)
      rw [List.foldl_cons]
      by_cases inside : dep.entryId ∈ members
      · have skipped : gatherDep hasher hashes members g dep = g := by
          rw [gatherDep, if_pos inside]
        rw [skipped] at same sccExt distinct any ⊢
        refine ⟨same, ?_, distinct, ?_⟩
        · intro k
          rw [sccExt]
          simp [or_and_right, exists_or, inside]
        · rw [any]
          simp [or_and_right, exists_or, inside]
      · have isNext : gatherDep hasher hashes members g dep =
            { g with
              anyIneligible := g.anyIneligible || hashes dep.entryId == 0
              sccExt := put g.sccExt (extKey hasher hashes dep) } := by
          rw [gatherDep, if_neg inside]
          rfl
        rw [isNext] at same sccExt distinct any ⊢
        refine ⟨same, ?_, ?_, ?_⟩
        · intro k
          rw [sccExt, mem_put, or_assoc]
          simp [or_and_right, exists_or, inside]
        · intro isDistinct
          exact distinct (put_nodup isDistinct _)
        · rw [any]
          simp [or_and_right, exists_or, inside, or_assoc]

theorem gatherMembers_added (hashes : Fin n → UInt64) (members ms : List (Fin n)) (g : Gathered) :
    (ms.foldl (gatherMember hasher store hashes members) g).memberSub =
      g.memberSub ++ ms.map (memberKey hasher store) ∧
    (g.sccExt.Nodup →
      (ms.foldl (gatherMember hasher store hashes members) g).sccExt.Nodup) ∧
    (∀ k, k ∈ (ms.foldl (gatherMember hasher store hashes members) g).sccExt ↔
      k ∈ g.sccExt ∨ ∃ m ∈ ms, ∃ dep ∈ store.dependencies m, dep.entryId ∉ members ∧
        k = extKey hasher hashes dep) ∧
    ((ms.foldl (gatherMember hasher store hashes members) g).anyIneligible = true ↔
      g.anyIneligible = true ∨ ∃ m ∈ ms, hashes m = 0 ∨
        ∃ dep ∈ store.dependencies m, dep.entryId ∉ members ∧ hashes dep.entryId = 0) := by
  induction ms generalizing g with
  | nil => simp
  | cons m more ih =>
      rw [List.foldl_cons]
      obtain ⟨subs, distinct, ext, any⟩ :=
        ih (gatherMember hasher store hashes members g m)
      let g' : Gathered := { g with
        anyIneligible := g.anyIneligible || hashes m == 0
        memberSub := g.memberSub ++ [memberKey hasher store m] }
      have one : (gatherMember hasher store hashes members g m).memberSub = g'.memberSub ∧
          Gathered.Added hasher hashes g' (gatherMember hasher store hashes members g m)
            fun dep => dep ∈ store.dependencies m ∧ dep.entryId ∉ members :=
        gatherDeps_added hashes members (store.dependencies m) g'
      obtain ⟨sub, extOne, distinctOne, anyOne⟩ := one
      refine ⟨?_, ?_, ?_, ?_⟩
      · rw [subs, sub]
        simp [g']
      · intro isDistinct
        exact distinct (distinctOne isDistinct)
      · intro k
        rw [ext, extOne]
        simp [g', or_assoc, and_assoc]
      · rw [any, anyOne]
        simp [g', or_assoc, and_assoc]

theorem sort_eq_of_perm {l l' : List UInt64} (perm : l.Perm l') :
    sortUnstable l = sortUnstable l' := by
  have total : Std.Total fun a b : UInt64 => a ≤ b := ⟨UInt64.le_total⟩
  have trans : IsTrans UInt64 fun a b => a ≤ b := ⟨fun _ _ _ => UInt64.le_trans⟩
  have both : (sortUnstable l).Perm (sortUnstable l') :=
    ((List.perm_insertionSort _ l).trans perm).trans (List.perm_insertionSort _ l').symm
  apply both.eq_of_pairwise _ (List.pairwise_insertionSort _ l) (List.pairwise_insertionSort _ l')
  intro a b _ _ ab ba
  exact UInt64.le_antisymm ab ba

/-- The hash of a larger component with eligible dependencies. -/
def sccHash (hasher : Hasher) (store : Store n) (hashes : Fin n → UInt64)
    (members : List (Fin n)) : UInt64 :=
  let g := members.foldl (gatherMember hasher store hashes members) ⟨[], [], false⟩
  let core := (sortUnstable g.memberSub).foldl (fun core k => hasher.update core (bytesOf k))
    (hasher.init sccSeed)
  notZero (hasher.final_
    ((sortUnstable g.sccExt).foldl (fun core k => hasher.update core (bytesOf k)) core))

/-- The digest of some dependency that leaves the component. -/
def IsExt (hasher : Hasher) (store : Store n) (hashes : Fin n → UInt64) (members : List (Fin n))
    (k : UInt64) : Prop :=
  ∃ m ∈ members, ∃ dep ∈ store.dependencies m, dep.entryId ∉ members ∧ k = extKey hasher hashes dep

/-- Neither the order of the members nor the numbering of the entries matters. -/
theorem sccHash_eq {n' : Nat} {store' : Store n'} {hashes : Fin n → UInt64}
    {hashes' : Fin n' → UInt64} {members : List (Fin n)} {members' : List (Fin n')}
    (perm : (members.map (memberKey hasher store)).Perm (members'.map (memberKey hasher store')))
    (sameExt : ∀ k, IsExt hasher store hashes members k ↔ IsExt hasher store' hashes' members' k) :
    sccHash hasher store hashes members = sccHash hasher store' hashes' members' := by
  obtain ⟨subs, distinct, ext, _⟩ :=
    @gatherMembers_added hasher n store hashes members members ⟨[], [], false⟩
  obtain ⟨subs', distinct', ext', _⟩ :=
    @gatherMembers_added hasher n' store' hashes' members' members' ⟨[], [], false⟩
  have sameSubs : sortUnstable (members.foldl (gatherMember hasher store hashes members)
      ⟨[], [], false⟩).memberSub =
      sortUnstable (members'.foldl (gatherMember hasher store' hashes' members')
        ⟨[], [], false⟩).memberSub := by
    apply sort_eq_of_perm
    rw [subs, subs']
    simpa using perm
  have sameExts : sortUnstable (members.foldl (gatherMember hasher store hashes members)
      ⟨[], [], false⟩).sccExt =
      sortUnstable (members'.foldl (gatherMember hasher store' hashes' members')
        ⟨[], [], false⟩).sccExt := by
    apply sort_eq_of_perm
    rw [List.perm_ext_iff_of_nodup (distinct List.nodup_nil) (distinct' List.nodup_nil)]
    intro k
    rw [ext, ext']
    simpa [IsExt] using sameExt k
  rw [sccHash, sccHash, sameSubs, sameExts]

theorem foldl_update (members : List (Fin n)) (hashes : Fin n → UInt64) (value : UInt64)
    (x : Fin n) :
    members.foldl (fun hashes m => Function.update hashes m value) hashes x =
      if x ∈ members then value else hashes x := by
  induction members generalizing hashes with
  | nil => simp
  | cons m more ih =>
      rw [List.foldl_cons, ih]
      by_cases same : x = m
      · subst same
        simp
      · simp [same]

/-- A member or a dependency of one has no hash. -/
def Lacking (store : Store n) (hashes : Fin n → UInt64) (members : List (Fin n)) : Prop :=
  ∃ m ∈ members, hashes m = 0 ∨
    ∃ dep ∈ store.dependencies m, dep.entryId ∉ members ∧ hashes dep.entryId = 0

theorem several_eq (hashes : Fin n → UInt64) (members : List (Fin n)) (x : Fin n) :
    (x ∉ members → several hasher store hashes members x = hashes x) ∧
    (x ∈ members → Lacking store hashes members → several hasher store hashes members x = 0) ∧
    (x ∈ members → ¬Lacking store hashes members →
      several hasher store hashes members x = sccHash hasher store hashes members) := by
  obtain ⟨_, _, _, any⟩ :=
    @gatherMembers_added hasher n store hashes members members ⟨[], [], false⟩
  have isAny : (members.foldl (gatherMember hasher store hashes members)
      ⟨[], [], false⟩).anyIneligible = true ↔ Lacking store hashes members := by
    rw [any]
    simp [Lacking]
  rw [several]
  simp only [foldl_update, isAny]
  refine ⟨?_, ?_, ?_⟩
  · intro outside
    rw [if_neg outside]
  · intro inside isLacking
    rw [if_pos inside, if_pos (isAny.mpr isLacking)]
  · intro inside notLacking
    rw [if_pos inside, if_neg (fun isTrue => notLacking (isAny.mp isTrue))]
    rfl

/-- What a dependency adds to the hash of an entry. -/
def link (hasher : Hasher) (hashes : Fin n → UInt64) (core : hasher.Core)
    (dep : DependenciesItem n) : hasher.Core :=
  fold hasher core dep.nameHash (hashes dep.entryId)

/-- The hash of an entry by itself, from the hashes of its dependencies. -/
def aloneHash (hasher : Hasher) (store : Store n) (hashes : Fin n → UInt64) (m : Fin n) : UInt64 :=
  notZero (hasher.final_
    ((store.dependencies m).foldl (link hasher hashes) (begin hasher store entrySeed m)))

theorem recompute_eq (hashes : Fin n → UInt64) (deps : List (DependenciesItem n))
    (sub : hasher.Core) :
    ((∃ dep ∈ deps, hashes dep.entryId = 0) → recompute hasher hashes deps sub = none) ∧
    ((∀ dep ∈ deps, hashes dep.entryId ≠ 0) →
      recompute hasher hashes deps sub = some (deps.foldl (link hasher hashes) sub)) := by
  induction deps generalizing sub with
  | nil => exact ⟨by simp, fun _ => rfl⟩
  | cons dep more ih =>
      rw [recompute]
      by_cases isZero : hashes dep.entryId = 0
      · rw [if_pos isZero]
        refine ⟨fun _ => rfl, ?_⟩
        intro all
        exact absurd isZero (all dep (List.mem_cons_self ..))
      · rw [if_neg isZero]
        obtain ⟨poisoned, clean⟩ := ih
          (fold hasher sub dep.nameHash (hashes dep.entryId))
        constructor
        · rintro ⟨bad, member, isBad⟩
          rcases List.mem_cons.mp member with rfl | later
          · exact absurd isBad isZero
          · exact poisoned ⟨bad, later, isBad⟩
        · intro all
          exact clean fun dep member => all dep (List.mem_cons_of_mem _ member)

theorem singleton_eq (hashes : Fin n → UInt64) (m x : Fin n) :
    (x ≠ m → singleton hasher store hashes m x = hashes x) ∧
    ((hashes m = 0 ∨ ∃ dep ∈ store.dependencies m, hashes dep.entryId = 0) →
      singleton hasher store hashes m m = 0) ∧
    (hashes m ≠ 0 → (∀ dep ∈ store.dependencies m, hashes dep.entryId ≠ 0) →
      singleton hasher store hashes m m = aloneHash hasher store hashes m) := by
  obtain ⟨poisoned, clean⟩ := recompute_eq hashes (store.dependencies m)
    (begin hasher store entrySeed m)
  rw [singleton]
  by_cases isZero : hashes m = 0
  · simp [isZero]
  rw [if_pos isZero]
  by_cases all : ∀ dep ∈ store.dependencies m, hashes dep.entryId ≠ 0
  · rw [clean all]
    refine ⟨?_, ?_, ?_⟩
    · intro ne
      exact Function.update_of_ne ne _ _
    · rintro (isZero' | ⟨dep, member, bad⟩)
      · exact absurd isZero' isZero
      · exact absurd bad (all dep member)
    · intro _ _
      exact Function.update_self ..
  · have some : ∃ dep ∈ store.dependencies m, hashes dep.entryId = 0 := by
      push_neg at all
      exact all
    rw [poisoned some]
    refine ⟨?_, ?_, ?_⟩
    · intro ne
      exact Function.update_of_ne ne _ _
    · intro _
      exact Function.update_self ..
    · intro _ clean
      exact absurd clean all

/-! ### All components -/

/-- What holds between the components. -/
structure Sound (store : Store n) (hashes : Fin n → UInt64) : Prop where
  eligible : ∀ e, hashes e ≠ 0 → (store.entries e).eligible = true
  spoiled : ∀ e, hashes e = 0 → Spoiled store e

theorem Spoiled.of_reach {e x : Fin n} (reach : Reach store.succ e x)
    (spoiled : Spoiled store x) : Spoiled store e := by
  obtain ⟨y, further, ineligible⟩ := spoiled
  exact ⟨y, reach.trans further, ineligible⟩

theorem finish_outside (hashes : Fin n → UInt64) {c : List (Fin n)} {x : Fin n}
    (outside : x ∉ c) : finish hasher store hashes c x = hashes x := by
  match c with
  | [] => rfl
  | [m] =>
      apply (singleton_eq hashes m x).1
      simpa using outside
  | a :: b :: more => exact (several_eq hashes (a :: b :: more) x).1 outside

theorem finish_sound {hashes : Fin n → UInt64} (sound : Sound store hashes) {c : List (Fin n)}
    (component : ∀ x ∈ c, ∀ y, y ∈ c ↔ Reach store.succ x y ∧ Reach store.succ y x) :
    Sound store (finish hasher store hashes c) := by
  match c with
  | [] => exact sound
  | [m] =>
      obtain ⟨_, poisoned, clean⟩ := @singleton_eq hasher n store hashes m m
      have others {x : Fin n} (ne : x ≠ m) : finish hasher store hashes [m] x = hashes x :=
        (singleton_eq hashes m x).1 ne
      by_cases isClean : hashes m ≠ 0 ∧ ∀ dep ∈ store.dependencies m, hashes dep.entryId ≠ 0
      · constructor
        · intro e ne
          by_cases same : e = m
          · rw [same]
            exact sound.eligible m isClean.1
          · exact sound.eligible e (others same ▸ ne)
        · intro e isZero
          by_cases same : e = m
          · subst same
            have isHash := clean isClean.1 isClean.2
            rw [show singleton hasher store hashes e e = 0 from isZero] at isHash
            exact absurd isHash.symm (DfsPass.notZero_ne _)
          · exact sound.spoiled e (others same ▸ isZero)
      · have isZero : hashes m = 0 ∨ ∃ dep ∈ store.dependencies m, hashes dep.entryId = 0 := by
          by_contra none
          push_neg at none
          exact isClean none
        have isSpoiled : Spoiled store m := by
          rcases isZero with isZero | ⟨dep, member, isZero⟩
          · exact sound.spoiled m isZero
          · exact Spoiled.of_succ (mem_succ member) (sound.spoiled _ isZero)
        constructor
        · intro e ne
          by_cases same : e = m
          · subst same
            exact absurd (poisoned isZero) ne
          · exact sound.eligible e (others same ▸ ne)
        · intro e isZero
          by_cases same : e = m
          · rw [same]
            exact isSpoiled
          · exact sound.spoiled e (others same ▸ isZero)
  | a :: b :: more =>
      have cases (x : Fin n) := @several_eq hasher n store hashes (a :: b :: more) x
      by_cases lacking : Lacking store hashes (a :: b :: more)
      · have isSpoiled {x : Fin n} (inside : x ∈ a :: b :: more) : Spoiled store x := by
          obtain ⟨m, member, isZero⟩ := lacking
          apply Spoiled.of_reach ((component x inside m).mp member).1
          rcases isZero with isZero | ⟨dep, isDep, _, isZero⟩
          · exact sound.spoiled m isZero
          · exact Spoiled.of_succ (mem_succ isDep) (sound.spoiled _ isZero)
        constructor
        · intro e ne
          by_cases inside : e ∈ a :: b :: more
          · exact absurd ((cases e).2.1 inside lacking) ne
          · exact sound.eligible e ((cases e).1 inside ▸ ne)
        · intro e isZero
          by_cases inside : e ∈ a :: b :: more
          · exact isSpoiled inside
          · exact sound.spoiled e ((cases e).1 inside ▸ isZero)
      · constructor
        · intro e ne
          by_cases inside : e ∈ a :: b :: more
          · apply sound.eligible e
            intro isZero
            exact lacking ⟨e, inside, .inl isZero⟩
          · exact sound.eligible e ((cases e).1 inside ▸ ne)
        · intro e isZero
          by_cases inside : e ∈ a :: b :: more
          · have isHash := (cases e).2.2 inside lacking
            rw [show several hasher store hashes (a :: b :: more) e = 0 from isZero] at isHash
            exact absurd isHash.symm (DfsPass.notZero_ne _)
          · exact sound.spoiled e ((cases e).1 inside ▸ isZero)

theorem aloneHash_congr {hashes hashes' : Fin n → UInt64} {e : Fin n}
    (same : ∀ dep ∈ store.dependencies e, hashes dep.entryId = hashes' dep.entryId) :
    aloneHash hasher store hashes e = aloneHash hasher store hashes' e := by
  have folds (deps : List (DependenciesItem n))
      (same : ∀ dep ∈ deps, hashes dep.entryId = hashes' dep.entryId) (core : hasher.Core) :
      deps.foldl (link hasher hashes) core = deps.foldl (link hasher hashes') core := by
    induction deps generalizing core with
    | nil => rfl
    | cons dep more ih =>
        rw [List.foldl_cons, List.foldl_cons, link, link, same dep (List.mem_cons_self ..)]
        exact ih (fun dep member => same dep (List.mem_cons_of_mem _ member)) _
  rw [aloneHash, aloneHash, folds _ same]

theorem sccHash_congr {hashes hashes' : Fin n → UInt64} {c : List (Fin n)}
    (same : ∀ m ∈ c, ∀ dep ∈ store.dependencies m, dep.entryId ∉ c →
      hashes dep.entryId = hashes' dep.entryId) :
    sccHash hasher store hashes c = sccHash hasher store hashes' c := by
  apply sccHash_eq (List.Perm.refl _)
  intro k
  constructor
  · rintro ⟨m, member, dep, isDep, outside, isKey⟩
    refine ⟨m, member, dep, isDep, outside, ?_⟩
    rw [isKey, extKey, extKey, same m member dep isDep outside]
  · rintro ⟨m, member, dep, isDep, outside, isKey⟩
    refine ⟨m, member, dep, isDep, outside, ?_⟩
    rw [isKey, extKey, extKey, same m member dep isDep outside]

/-- Two entries reach each other. -/
def Mutual (store : Store n) (x y : Fin n) : Prop :=
  Reach store.succ x y ∧ Reach store.succ y x

/-- An entry has the hash of its component; one that is alone reads its own first hash. -/
structure Placed (hasher : Hasher) (store : Store n) (first hashes : Fin n → UInt64) (e : Fin n) :
    Prop where
  alone : Alone store e → hashes e ≠ 0 →
    hashes e = aloneHash hasher store (Function.update hashes e (first e)) e
  several : ¬Alone store e → hashes e ≠ 0 → ∃ c : List (Fin n), c.Nodup ∧
    (∀ y, y ∈ c ↔ Mutual store e y) ∧ hashes e = sccHash hasher store hashes c

/-- Only the hashes of what the entry reaches matter. -/
theorem Placed.congr {first hashes hashes' : Fin n → UInt64} {e : Fin n}
    (placed : Placed hasher store first hashes e)
    (same : ∀ x, Reach store.succ e x → hashes' x = hashes x) :
    Placed hasher store first hashes' e := by
  have here := same e .refl
  constructor
  · intro alone ne
    rw [here] at ne ⊢
    rw [placed.alone alone ne]
    apply aloneHash_congr
    intro dep member
    by_cases isSelf : dep.entryId = e
    · rw [isSelf, Function.update_self, Function.update_self]
    · rw [Function.update_of_ne isSelf, Function.update_of_ne isSelf]
      exact (same _ (.single (mem_succ member))).symm
  · intro notAlone ne
    rw [here] at ne ⊢
    obtain ⟨c, distinct, isComponent, isHash⟩ := placed.several notAlone ne
    refine ⟨c, distinct, isComponent, ?_⟩
    rw [isHash]
    apply sccHash_congr
    intro m member dep isDep _
    exact (same _ (((isComponent m).mp member).1.tail (mem_succ isDep))).symm

theorem emission_placed (first : Fin n → UInt64) {comps : List (List (Fin n))}
    (emission : Emission store.succ comps) :
    (∀ e ∈ comps.flatten, Placed hasher store first (comps.foldl (finish hasher store) first) e) ∧
    ∀ e, e ∉ comps.flatten → comps.foldl (finish hasher store) first e = first e := by
  induction emission with
  | nil => exact ⟨by simp, fun _ _ => rfl⟩
  | @snoc comps c before nonempty distinct apart closed component ih =>
      obtain ⟨earlier, untouched⟩ := ih
      rw [List.foldl_append, List.foldl_cons, List.foldl_nil]
      generalize comps.foldl (finish hasher store) first = hashes at earlier untouched ⊢
      have outside {x : Fin n} (notIn : x ∉ c) : finish hasher store hashes c x = hashes x :=
        finish_outside hashes notIn
      have here {m : Fin n} (member : m ∈ c) : hashes m = first m := untouched m (apart m member)
      constructor
      · intro e member
        rw [List.flatten_append, List.mem_append] at member
        rcases member with isEarlier | isHere
        · apply (earlier e isEarlier).congr
          intro x reach
          have stays : x ∈ comps.flatten := Reach.stays (S := (· ∈ comps.flatten))
            before.succ_closed reach isEarlier
          exact outside fun isHere => apart x isHere stays
        · simp only [List.flatten_cons, List.flatten_nil, List.append_nil] at isHere
          match c, isHere, nonempty, distinct, component with
          | [m], isHere, _, _, component =>
              have same : e = m := by simpa using isHere
              subst same
              obtain ⟨_, poisoned, clean⟩ := @singleton_eq hasher n store hashes e e
              have isAlone : Alone store e := by
                intro y there back
                have := (component e (List.mem_cons_self ..) y).mpr ⟨there, back⟩
                simpa using this
              constructor
              · intro _ ne
                have isClean : hashes e ≠ 0 ∧ ∀ dep ∈ store.dependencies e,
                    hashes dep.entryId ≠ 0 := by
                  by_contra notClean
                  apply ne
                  apply poisoned
                  by_contra none
                  push_neg at none
                  exact notClean none
                have isHash : finish hasher store hashes [e] e = _ := clean isClean.1 isClean.2
                rw [isHash]
                apply aloneHash_congr
                intro dep _
                by_cases isSelf : dep.entryId = e
                · rw [isSelf, Function.update_self]
                  exact here (List.mem_cons_self ..)
                · rw [Function.update_of_ne isSelf]
                  exact (outside (by simpa using isSelf)).symm
              · intro notAlone _
                exact absurd isAlone notAlone
          | a :: b :: more, isHere, _, distinct, component =>
              obtain ⟨_, lacks, has⟩ := @several_eq hasher n store hashes (a :: b :: more) e
              constructor
              · intro isAlone _
                exfalso
                have mutualA := (component e isHere a).mp (List.mem_cons_self ..)
                have mutualB := (component e isHere b).mp (by simp)
                have isA := isAlone a mutualA.1 mutualA.2
                have isB := isAlone b mutualB.1 mutualB.2
                have ne := (List.nodup_cons.mp distinct).1
                rw [isA, ← isB] at ne
                exact ne (List.mem_cons_self ..)
              · intro _ ne
                refine ⟨a :: b :: more, distinct, component e isHere, ?_⟩
                have notLacking : ¬Lacking store hashes (a :: b :: more) :=
                  fun lacking => ne (lacks isHere lacking)
                have isHash : finish hasher store hashes (a :: b :: more) e = _ :=
                  has isHere notLacking
                rw [isHash]
                apply sccHash_congr
                intro m _ dep _ notIn
                exact (outside notIn).symm
      · intro e notIn
        rw [List.flatten_append, List.mem_append, not_or] at notIn
        simp only [List.flatten_cons, List.flatten_nil, List.append_nil] at notIn
        rw [outside notIn.2]
        exact untouched e notIn.1

theorem foldl_finish_sound {first : Fin n → UInt64} (sound : Sound store first)
    {comps : List (List (Fin n))} (emission : Emission store.succ comps) :
    Sound store (comps.foldl (finish hasher store) first) := by
  induction emission with
  | nil => exact sound
  | snoc before nonempty distinct apart closed component ih =>
      rw [List.foldl_append, List.foldl_cons, List.foldl_nil]
      exact finish_sound ih component

/-! ### Ineligible dependencies -/

/-- No entry with a hash has a dependency without one. -/
def Closed (store : Store n) (hashes : Fin n → UInt64) : Prop :=
  ∀ e, hashes e ≠ 0 → ∀ dep ∈ store.dependencies e, hashes dep.entryId ≠ 0

/-- Hashes after a part of a sweep. -/
structure Swept (store : Store n) (before : Fin n → UInt64) (result : (Fin n → UInt64) × Bool) :
    Prop where
  sound : Sound store before → Sound store result.1
  zeroed : ∀ x, result.1 x = before x ∨ result.1 x = 0
  changed : result.2 = true → ∃ x, before x ≠ 0 ∧ result.1 x = 0
  unchanged : result.2 = false → result.1 = before

theorem close_swept {before : Fin n → UInt64} {result : (Fin n → UInt64) × Bool}
    (swept : Swept store before result) (e : Fin n) : Swept store before (close store result e) := by
  rw [close]
  split
  · exact swept
  · next notZero =>
      split
      · next some =>
          rw [List.any_eq_true] at some
          obtain ⟨dep, member, isZero⟩ := some
          rw [beq_iff_eq] at isZero
          constructor
          · intro initial
            have sound := swept.sound initial
            constructor
            · intro x ne
              by_cases same : x = e
              · rw [same]
                exact sound.eligible e notZero
              · apply sound.eligible x
                simpa [same] using ne
            · intro x isZeroX
              by_cases same : x = e
              · rw [same]
                exact Spoiled.of_succ (mem_succ member) (sound.spoiled _ isZero)
              · apply sound.spoiled x
                simpa [same] using isZeroX
          · intro x
            by_cases same : x = e
            · right
              simp [same]
            · simpa [same] using swept.zeroed x
          · intro _
            refine ⟨e, ?_, by simp⟩
            rcases swept.zeroed e with same | isZero
            · rw [← same]
              exact notZero
            · exact absurd isZero notZero
          · intro isFalse
            cases isFalse
      · exact swept

theorem foldl_close {before : Fin n → UInt64} {result : (Fin n → UInt64) × Bool}
    (swept : Swept store before result) (entries : List (Fin n)) :
    Swept store before (entries.foldl (close store) result) ∧
    ((entries.foldl (close store) result).2 = false → result.2 = false ∧
      ∀ e ∈ entries, before e ≠ 0 → ∀ dep ∈ store.dependencies e, before dep.entryId ≠ 0) := by
  induction entries generalizing result with
  | nil => exact ⟨swept, fun isFalse => ⟨isFalse, by simp⟩⟩
  | cons e more ih =>
      rw [List.foldl_cons]
      obtain ⟨after, closed⟩ := ih (close_swept swept e)
      refine ⟨after, ?_⟩
      intro isFalse
      obtain ⟨isSame, others⟩ := closed isFalse
      have notSet : result.2 = false ∧
          (result.1 e ≠ 0 → ∀ dep ∈ store.dependencies e, result.1 dep.entryId ≠ 0) := by
        rw [close] at isSame
        split at isSame
        · next isZero => exact ⟨isSame, fun ne => absurd isZero ne⟩
        · split at isSame
          · cases isSame
          · next none =>
              refine ⟨isSame, ?_⟩
              intro _ dep member isZero
              apply none
              rw [List.any_eq_true]
              exact ⟨dep, member, by simpa using isZero⟩
      refine ⟨notSet.1, ?_⟩
      intro x member
      rcases List.mem_cons.mp member with rfl | isMore
      · rw [← swept.unchanged notSet.1]
        exact notSet.2
      · exact others x isMore

theorem sweep_swept (hashes : Fin n → UInt64) :
    (∀ after, sweep store hashes = some after →
      (Sound store hashes → Sound store after) ∧ (∀ x, after x = hashes x ∨ after x = 0) ∧
        ∃ x, hashes x ≠ 0 ∧ after x = 0) ∧
    (sweep store hashes = none → Closed store hashes) := by
  have initial : Swept store hashes (hashes, false) :=
    ⟨id, fun _ => .inl rfl, by simp, fun _ => rfl⟩
  obtain ⟨swept, closed⟩ := foldl_close initial (List.finRange n)
  rw [sweep]
  generalize (List.finRange n).foldl (close store) (hashes, false) = result at swept closed
  obtain ⟨after, changed⟩ := result
  cases changed with
  | true =>
      constructor
      · rintro _ ⟨⟩
        exact ⟨swept.sound, swept.zeroed, swept.changed rfl⟩
      · intro isNone
        cases isNone
  | false =>
      constructor
      · intro _ isSome
        cases isSome
      · intro _ e
        exact (closed rfl).2 e (List.mem_finRange e)

/-- The number of entries with a hash. -/
def hashed (hashes : Fin n → UInt64) : Nat := (Finset.univ.filter (hashes · ≠ 0)).card

theorem hashed_lt {hashes after : Fin n → UInt64} (zeroed : ∀ x, after x = hashes x ∨ after x = 0)
    (less : ∃ x, hashes x ≠ 0 ∧ after x = 0) : hashed after < hashed hashes := by
  obtain ⟨x, ne, isZero⟩ := less
  apply Finset.card_lt_card
  rw [Finset.ssubset_iff_of_subset]
  · exact ⟨x, by simpa using ne, by simpa using isZero⟩
  · intro y
    simp only [Finset.mem_filter, Finset.mem_univ, true_and]
    intro afterNe
    rcases zeroed y with same | isZero
    · rwa [← same]
    · exact absurd isZero afterNe

/-- The passages to the fixpoint end, in hashes that are closed. -/
theorem loop_sweep {hashes : Fin n → UInt64} (sound : Sound store hashes) {fuel : Nat}
    (enough : n < fuel) :
    ∃ after, loop (sweep store) fuel hashes = some after ∧ Closed store after ∧
      Sound store after ∧ ∀ x, after x = hashes x ∨ after x = 0 := by
  have small : hashed hashes < fuel := by
    have le : hashed hashes ≤ Fintype.card (Fin n) := Finset.card_le_univ _
    rw [Fintype.card_fin] at le
    omega
  obtain ⟨after, isLoop, ended, sound, zeroed⟩ := loop_ends
    (fun after => Sound store after ∧ ∀ x, after x = hashes x ∨ after x = 0) hashed
    (fun before after isSweep invariant => by
      obtain ⟨kept, zeroed, less⟩ := (sweep_swept before).1 after isSweep
      refine ⟨⟨kept invariant.1, ?_⟩, hashed_lt zeroed less⟩
      intro x
      rcases zeroed x with same | isZero
      · rw [same]
        exact invariant.2 x
      · exact .inr isZero)
    ⟨sound, fun _ => .inl rfl⟩ small
  exact ⟨after, isLoop, (sweep_swept after).2 ended, sound, zeroed⟩

/-! ### The three passes -/

/-- The hashes that the three passes give: none exactly for entries that reach an ineligible
one, and else that of the component. `first` are the hashes of the depth-first pass. -/
structure Hashed (hasher : Hasher) (store : Store n) (first hashes : Fin n → UInt64) : Prop where
  firstHash : ∀ e, FirstHash hasher store first e
  zero : ∀ e, hashes e = 0 ↔ Spoiled store e
  placed : ∀ e, Placed hasher store first hashes e

/-- More turns change nothing. -/
theorem entryHashes_mono {fuel more : Nat} (le : fuel ≤ more) {hashes : Fin n → UInt64}
    (isHashes : entryHashes hasher store fuel = some hashes) :
    entryHashes hasher store more = some hashes := by
  obtain ⟨d, isDfs, later⟩ := Option.bind_eq_some_iff.mp isHashes
  obtain ⟨middle, isScc, isLoop⟩ := Option.bind_eq_some_iff.mp later
  obtain ⟨s, isRun, isOut⟩ := Option.bind_eq_some_iff.mp isScc
  have dfsMore : dfsPass hasher store more = some d := by
    apply foldlM_mono _ isDfs
    intro d root t isStep
    split at isStep
    · next visited => rwa [if_pos visited]
    · next fresh =>
        rw [if_neg fresh]
        exact loop_mono le isStep
  have sccMore : sccPass hasher store more d.entryHashes = some middle := by
    refine Option.bind_eq_some_iff.mpr ⟨s, ?_, isOut⟩
    apply foldlM_mono _ isRun
    intro d root t isStep
    split at isStep
    · next visited => rwa [if_pos visited]
    · next fresh =>
        rw [if_neg fresh]
        exact loop_mono le isStep
  exact Option.bind_eq_some_iff.mpr ⟨d, dfsMore,
    Option.bind_eq_some_iff.mpr ⟨middle, sccMore, loop_mono le isLoop⟩⟩

/-- A store with its hashes: those of the depth-first pass, and the final ones. -/
structure HashedStore (hasher : Hasher) (n : Nat) where
  store : Store n
  first : Fin n → UInt64
  hashes : Fin n → UInt64
  isFirst : (dfsPass hasher store (4 * n + 2)).map DfsPass.entryHashes = some first
  isHashes : entryHashes hasher store (4 * n + 2) = some hashes

/-- Every store has its hashes; turns that are left over change nothing. -/
theorem exists_hashed (hasher : Hasher) (store : Store n) :
    ∃ h : HashedStore hasher n, h.store = store ∧ Hashed hasher store h.first h.hashes ∧
      ∀ fuel, 4 * n + 1 < fuel → entryHashes hasher store fuel = some h.hashes := by
  have enough : 4 * n + 1 < 4 * n + 2 := Nat.lt_succ_self _
  obtain ⟨d, isDfs, firstHash⟩ := dfsPass_done hasher store enough
  have enoughScc : 4 * Fintype.card (Fin n) + 1 < 4 * n + 2 := by
    rw [Fintype.card_fin]
    exact enough
  obtain ⟨comps, isRun, emission, all⟩ := Tarjan.run_emission (finish hasher store)
    d.entryHashes (List.finRange n) enoughScc
  have initial : Sound store d.entryHashes :=
    ⟨fun e ne => (firstHash e).eligible ne, fun e isZero => (firstHash e).spoiled isZero⟩
  have sound := @foldl_finish_sound hasher n store _ initial comps emission
  obtain ⟨placed, _⟩ := @emission_placed hasher n store d.entryHashes comps emission
  obtain ⟨after, isLoop, closed, soundAfter, zeroed⟩ :=
    loop_sweep sound (show n < 4 * n + 2 by omega)
  have isHashes : entryHashes hasher store (4 * n + 2) = some after :=
    Option.bind_eq_some_iff.mpr ⟨d, isDfs, Option.bind_eq_some_iff.mpr ⟨_, isRun, isLoop⟩⟩
  have zero (e : Fin n) : after e = 0 ↔ Spoiled store e := by
    constructor
    · exact soundAfter.spoiled e
    · rintro ⟨x, reach, ineligible⟩
      by_contra ne
      have stays : after x ≠ 0 := by
        apply Reach.stays (S := (after · ≠ 0)) _ reach ne
        intro y isHashed z edge
        obtain ⟨dep, member, rfl⟩ := List.mem_map.mp edge
        exact closed y isHashed dep member
      have eligible := soundAfter.eligible x stays
      rw [ineligible] at eligible
      cases eligible
  refine ⟨⟨store, d.entryHashes, after, by rw [isDfs]; rfl, isHashes⟩, rfl,
    ⟨firstHash, zero, ?_⟩, fun fuel more => entryHashes_mono more isHashes⟩
  intro e
  by_cases isSpoiled : Spoiled store e
  · have isZero := (zero e).mpr isSpoiled
    exact ⟨fun _ ne => absurd isZero ne, fun _ ne => absurd isZero ne⟩
  · apply (placed e (all e (List.mem_finRange e))).congr
    intro x reach
    rcases zeroed x with same | isZero
    · exact same
    · exact absurd (Spoiled.of_reach reach ((zero x).mp isZero)) isSpoiled

theorem HashedStore.hashed (h : HashedStore hasher n) : Hashed hasher h.store h.first h.hashes := by
  obtain ⟨⟨store, first, hashes, isFirst, isHashes⟩, isStore, hashed, _⟩ :=
    exists_hashed hasher h.store
  obtain ⟨store', first', hashes', isFirst', isHashes'⟩ := h
  simp only at isStore hashed ⊢
  subst isStore
  rw [isFirst] at isFirst'
  rw [isHashes] at isHashes'
  cases isFirst'
  cases isHashes'
  exact hashed

/-- An entry gets a hash exactly when it is eligible and all entries it reaches are. -/
theorem entry_hash_ne_zero (hasher : Hasher) (store : Store n) :
    ∃ hashes, (∀ fuel, 4 * n + 1 < fuel → entryHashes hasher store fuel = some hashes) ∧
      ∀ e, hashes e ≠ 0 ↔ ∀ x, Reach store.succ e x → (store.entries x).eligible = true := by
  obtain ⟨h, _, isHashed, isHashes⟩ := exists_hashed hasher store
  refine ⟨h.hashes, isHashes, ?_⟩
  intro e
  rw [ne_eq, isHashed.zero]
  constructor
  · intro clean x reach
    by_contra notEligible
    exact clean ⟨x, reach, by simpa using notEligible⟩
  · rintro all ⟨x, reach, ineligible⟩
    rw [all x reach] at ineligible
    cases ineligible

end Bunx.IsolatedInstall
