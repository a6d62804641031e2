/-
Module: Bunx.IsolatedInstall.StoreKeys
Purpose: Whether the key of the global store, store path and hash, determines what the entry's
  dependencies are linked to.
Trusted boundary: none
Main exports: Hashing, HashedStore.inputs, CollisionFree, SameDependencies, key_determines,
  key_shared_by_cycles
-/
import Bunx.IsolatedInstall.Numbering

namespace Bunx.IsolatedInstall

open Bunx.Lib

/-! ### What is hashed -/

/-- A hash, and what it is one of. -/
structure Hashing where
  seed : UInt64
  chunks : List Bytes
  value : UInt64
deriving DecidableEq

variable {hasher : Hasher} {n n' : Nat}

def digest (hasher : Hasher) (seed : UInt64) (chunks : List Bytes) : UInt64 :=
  hasher.final_ (chunks.foldl hasher.update (hasher.init seed))

/-- A hash that is not 0. -/
def sealed (hasher : Hasher) (seed : UInt64) (chunks : List Bytes) : Hashing :=
  { seed, chunks, value := notZero (digest hasher seed chunks) }

/-- A hash that goes into another one. -/
def plain (hasher : Hasher) (seed : UInt64) (chunks : List Bytes) : Hashing :=
  { seed, chunks, value := digest hasher seed chunks }

def own (store : Store n) (e : Fin n) : List Bytes :=
  [(store.entries e).storePath, (store.entries e).integrity.bytes]

def linkChunks (hashes : Fin n → UInt64) (dep : DependenciesItem n) : List Bytes :=
  [bytesOf dep.nameHash, bytesOf (hashes dep.entryId)]

/-- What the first pass may feed for the dependencies: each one's name, with its hash or
without. -/
def firstChunks (first : Fin n → UInt64) : List (DependenciesItem n) → List (List Bytes)
  | [] => [[]]
  | dep :: more =>
      (firstChunks first more).flatMap fun rest =>
        [bytesOf dep.nameHash :: rest, linkChunks first dep ++ rest]

namespace HashedStore

variable (h : HashedStore hasher n)

/-- The components, in the order in which the second pass meets them. -/
def components : List (List (Fin n)) :=
  (Tarjan.run h.store.succ (fun out c => out ++ [c]) (4 * n + 2) (List.finRange n) []).getD []

/-- What the passes hash for an entry, and what they could for any of its dependencies. -/
def entryInputs (e : Fin n) : List Hashing :=
  ((firstChunks h.first (h.store.dependencies e)).map fun more =>
    sealed hasher entrySeed (own h.store e ++ more)) ++
  [sealed hasher entrySeed (own h.store e ++
    (h.store.dependencies e).flatMap (linkChunks (Function.update h.hashes e (h.first e)))),
   plain hasher 0 (own h.store e)] ++
  (h.store.dependencies e).map fun dep => plain hasher 0 (linkChunks h.hashes dep)

/-- What the second pass hashes for a larger component. -/
def componentInput (members : List (Fin n)) : Hashing :=
  let g := members.foldl (gatherMember hasher h.store h.hashes members) ⟨[], [], false⟩
  sealed hasher sccSeed ((sortUnstable g.memberSub ++ sortUnstable g.sccExt).map bytesOf)

def inputs : List Hashing :=
  (List.finRange n).flatMap h.entryInputs ++
    (h.components.filter (1 < ·.length)).map h.componentInput

/-- The names of all dependencies, with their hashes. -/
def names : List (Bytes × UInt64) :=
  (List.finRange n).flatMap fun e => (h.store.dependencies e).map fun dep => (dep.name, dep.nameHash)

end HashedStore

/-- No two things that are hashed for the two stores have one hash, and neither have two
names, nor a name and something else. -/
structure CollisionFree (h : HashedStore hasher n) (h' : HashedStore hasher n') : Prop where
  inputs : ∀ x ∈ h.inputs ++ h'.inputs, ∀ y ∈ h.inputs ++ h'.inputs, x.value = y.value →
    x.seed = y.seed ∧ x.chunks.flatten = y.chunks.flatten
  names : ∀ a ∈ h.names ++ h'.names, ∀ b ∈ h.names ++ h'.names, a.2 = b.2 → a.1 = b.1
  apart : ∀ a ∈ h.names ++ h'.names, ∀ x ∈ h.inputs ++ h'.inputs, a.2 ≠ x.value

/-- A dependency of one store and one of another have the same name and lead to the same
key. -/
def SameLink (h : HashedStore hasher n) (h' : HashedStore hasher n') (dep : DependenciesItem n)
    (dep' : DependenciesItem n') : Prop :=
  dep.name = dep'.name ∧
  (h.store.entries dep.entryId).storePath = (h'.store.entries dep'.entryId).storePath ∧
  h.hashes dep.entryId = h'.hashes dep'.entryId

/-- The dependencies of two entries, by name, lead to the same keys. -/
def SameDependencies (h : HashedStore hasher n) (h' : HashedStore hasher n') (e : Fin n)
    (e' : Fin n') : Prop :=
  (∀ dep ∈ h.store.dependencies e, ∃ dep' ∈ h'.store.dependencies e', SameLink h h' dep dep') ∧
  ∀ dep' ∈ h'.store.dependencies e', ∃ dep ∈ h.store.dependencies e, SameLink h h' dep dep'

/-- Two entries have one directory in the global store. -/
def SameKey (h : HashedStore hasher n) (h' : HashedStore hasher n') (e : Fin n) (e' : Fin n') :
    Prop :=
  (h.store.entries e).storePath = (h'.store.entries e').storePath ∧
  h.hashes e = h'.hashes e' ∧ h.hashes e ≠ 0

/-! ### Reading back what was hashed -/

/-- Paths are text, and digests have one of the known tags, which are no text. -/
def TextPaths (store : Store n) : Prop :=
  ∀ e, (∀ b ∈ (store.entries e).storePath, 32 ≤ b) ∧ (store.entries e).integrity.tag < 32

theorem own_inj {store : Store n} {store' : Store n'} (text : TextPaths store)
    (text' : TextPaths store') {e : Fin n} {e' : Fin n'} {rest rest' : List Bytes}
    (same : (own store e ++ rest).flatten = (own store' e' ++ rest').flatten) :
    (store.entries e).storePath = (store'.entries e').storePath ∧ rest.flatten = rest'.flatten := by
  obtain ⟨isText, isTag⟩ := text e
  obtain ⟨isText', isTag'⟩ := text' e'
  simp only [own, Integrity.bytes, List.cons_append, List.nil_append, List.flatten_cons] at same
  have padded := (store.entries e).integrity.padded
  have padded' := (store'.entries e').integrity.padded
  generalize (store.entries e).integrity.tag = tag at same isTag
  generalize (store'.entries e').integrity.tag = tag' at same isTag'
  generalize (store.entries e).integrity.value = value at same padded
  generalize (store'.entries e').integrity.value = value' at same padded'
  generalize (store.entries e).storePath = path at same isText ⊢
  generalize (store'.entries e').storePath = path' at same isText' ⊢
  induction path generalizing path' with
  | nil =>
      cases path' with
      | nil =>
          simp only [List.nil_append, List.cons.injEq] at same
          have sameLength : value.length = value'.length := padded.trans padded'.symm
          exact ⟨rfl, (List.append_inj same.2 sameLength).2⟩
      | cons b path' =>
          simp only [List.nil_append, List.cons_append, List.cons.injEq] at same
          have isLarge := isText' b (List.mem_cons_self ..)
          rw [← same.1] at isLarge
          exact absurd isTag (UInt8.not_lt.mpr isLarge)
  | cons a path ih =>
      cases path' with
      | nil =>
          simp only [List.nil_append, List.cons_append, List.cons.injEq] at same
          have isLarge := isText a (List.mem_cons_self ..)
          rw [same.1] at isLarge
          exact absurd isTag' (UInt8.not_lt.mpr isLarge)
      | cons b path' =>
          simp only [List.cons_append, List.cons.injEq] at same
          obtain ⟨isPath, isRest⟩ := ih
            (fun b member => isText b (List.mem_cons_of_mem _ member)) path' same.2
            (fun b member => isText' b (List.mem_cons_of_mem _ member))
          exact ⟨by rw [same.1, isPath], isRest⟩

@[simp] theorem bytesOf_length (hash : UInt64) : (bytesOf hash).length = 8 :=
  leBytes_length 8 _

theorem bytesOf_inj {a b : UInt64} (same : bytesOf a = bytesOf b) : a = b := by
  have values := congrArg leValue same
  rw [bytesOf, bytesOf, leValue_leBytes a.toNat_lt, leValue_leBytes b.toNat_lt] at values
  exact UInt64.toNat_inj.mp values

theorem links_cons (hashes : Fin n → UInt64) (dep : DependenciesItem n)
    (more : List (DependenciesItem n)) :
    ((dep :: more).flatMap (linkChunks hashes)).flatten = bytesOf dep.nameHash ++
      (bytesOf (hashes dep.entryId) ++ (more.flatMap (linkChunks hashes)).flatten) := by
  simp [linkChunks]

/-- Names and hashes can be read back. -/
theorem links_inj {hashes : Fin n → UInt64} {hashes' : Fin n' → UInt64}
    {deps : List (DependenciesItem n)} {deps' : List (DependenciesItem n')}
    (same : (deps.flatMap (linkChunks hashes)).flatten =
      (deps'.flatMap (linkChunks hashes')).flatten) :
    List.Forall₂ (fun dep dep' => dep.nameHash = dep'.nameHash ∧
      hashes dep.entryId = hashes' dep'.entryId) deps deps' := by
  induction deps generalizing deps' with
  | nil =>
      cases deps' with
      | nil => exact .nil
      | cons dep' more' =>
          have lengths := congrArg List.length same
          rw [links_cons, List.length_append, bytesOf_length] at lengths
          exact absurd lengths (by simp; omega)
  | cons dep more ih =>
      cases deps' with
      | nil =>
          have lengths := congrArg List.length same
          rw [links_cons, List.length_append, bytesOf_length] at lengths
          exact absurd lengths (by simp)
      | cons dep' more' =>
          rw [links_cons, links_cons] at same
          obtain ⟨isName, isRest⟩ := List.append_inj same (by simp)
          obtain ⟨isHash, isMore⟩ := List.append_inj isRest (by simp)
          exact .cons ⟨bytesOf_inj isName, bytesOf_inj isHash⟩ (ih isMore)

/-- What the first pass feeds for a dependency of an entry that is alone. -/
def edgeChunks (first : Fin n → UInt64) (e : Fin n) (dep : DependenciesItem n) : List Bytes :=
  if dep.entryId = e then [bytesOf dep.nameHash] else linkChunks first dep

theorem edges_cons (first : Fin n → UInt64) (e : Fin n) (dep : DependenciesItem n)
    (more : List (DependenciesItem n)) :
    ((dep :: more).flatMap (edgeChunks first e)).flatten = bytesOf dep.nameHash ++
      ((if dep.entryId = e then [] else bytesOf (first dep.entryId)) ++
        (more.flatMap (edgeChunks first e)).flatten) := by
  by_cases isSelf : dep.entryId = e <;> simp [edgeChunks, linkChunks, isSelf]

/-- A placeholder is recognised: after it there is a name where a hash would be. -/
theorem edges_ne_links {first : Fin n → UInt64} {hashes' : Fin n' → UInt64} {e : Fin n}
    {deps : List (DependenciesItem n)} {deps' : List (DependenciesItem n')}
    (hasSelf : ∃ dep ∈ deps, dep.entryId = e)
    (apart : ∀ dep ∈ deps, ∀ dep' ∈ deps', dep.nameHash ≠ hashes' dep'.entryId) :
    (deps.flatMap (edgeChunks first e)).flatten ≠
      (deps'.flatMap (linkChunks hashes')).flatten := by
  induction deps generalizing deps' with
  | nil => simp at hasSelf
  | cons dep more ih =>
      intro same
      cases deps' with
      | nil =>
          have lengths := congrArg List.length same
          rw [edges_cons, List.length_append, bytesOf_length] at lengths
          exact absurd lengths (by simp)
      | cons dep' more' =>
          rw [edges_cons, links_cons] at same
          obtain ⟨_, isRest⟩ := List.append_inj same (by simp)
          by_cases isSelf : dep.entryId = e
          · rw [if_pos isSelf, List.nil_append] at isRest
            cases more with
            | nil =>
                have lengths := congrArg List.length isRest
                rw [List.length_append, bytesOf_length] at lengths
                exact absurd lengths (by simp; omega)
            | cons next more =>
                rw [edges_cons] at isRest
                have isName := bytesOf_inj (List.append_inj isRest (by simp)).1
                exact apart next (by simp) dep' (List.mem_cons_self ..) isName
          · rw [if_neg isSelf] at isRest
            obtain ⟨_, isMore⟩ := List.append_inj isRest (by simp)
            apply ih _ _ isMore
            · obtain ⟨x, member, isX⟩ := hasSelf
              rcases List.mem_cons.mp member with rfl | later
              · exact absurd isX isSelf
              · exact ⟨x, later, isX⟩
            · intro x member x' member'
              exact apart x (List.mem_cons_of_mem _ member) x' (List.mem_cons_of_mem _ member')

/-! ### Hashes as hashings -/

theorem aloneHash_value (store : Store n) (hashes : Fin n → UInt64) (e : Fin n) :
    aloneHash hasher store hashes e = (sealed hasher entrySeed
      (own store e ++ (store.dependencies e).flatMap (linkChunks hashes))).value := by
  rw [aloneHash, sealed, digest, List.foldl_append, List.foldl_flatMap]
  rfl

theorem edgeHash_value (store : Store n) (first : Fin n → UInt64) (e : Fin n) :
    notZero (hasher.final_ ((store.dependencies e).foldl (edge first e)
      (begin hasher store entrySeed e))) = (sealed hasher entrySeed
        (own store e ++ (store.dependencies e).flatMap (edgeChunks first e))).value := by
  have isEdge : edge first e = fun (core : hasher.Core) dep =>
      (edgeChunks first e dep).foldl hasher.update core := by
    funext core dep
    by_cases isSelf : dep.entryId = e
    · rw [edge, edgeChunks, if_pos isSelf, if_pos isSelf]
      rfl
    · rw [edge, edgeChunks, if_neg isSelf, if_neg isSelf]
      rfl
  rw [sealed, digest, List.foldl_append, List.foldl_flatMap, isEdge]
  rfl

theorem mem_firstChunks (first : Fin n → UInt64) (e : Fin n) (deps : List (DependenciesItem n)) :
    deps.flatMap (edgeChunks first e) ∈ firstChunks first deps := by
  induction deps with
  | nil => exact List.mem_singleton_self _
  | cons dep more ih =>
      rw [firstChunks, List.mem_flatMap]
      refine ⟨_, ih, ?_⟩
      by_cases isSelf : dep.entryId = e
      · simp [edgeChunks, isSelf]
      · simp [edgeChunks, isSelf]

/-- What the second pass reads for an entry that is alone. -/
def HashedStore.read (h : HashedStore hasher n) (e : Fin n) : Fin n → UInt64 :=
  Function.update h.hashes e (h.first e)

/-- The last hash of an entry that is alone. -/
theorem final_input (h : HashedStore hasher n) {e : Fin n} (clean : ¬Spoiled h.store e)
    (alone : Alone h.store e) :
    sealed hasher entrySeed (own h.store e ++
      (h.store.dependencies e).flatMap (linkChunks (h.read e))) ∈ h.inputs ∧
    h.hashes e = (sealed hasher entrySeed (own h.store e ++
      (h.store.dependencies e).flatMap (linkChunks (h.read e)))).value := by
  constructor
  · apply List.mem_append_left
    rw [List.mem_flatMap]
    refine ⟨e, List.mem_finRange e, ?_⟩
    simp [HashedStore.entryInputs, HashedStore.read]
  · have ne : h.hashes e ≠ 0 := fun isZero => clean ((h.hashed.zero e).mp isZero)
    rw [← aloneHash_value]
    exact (h.hashed.placed e).alone alone ne

/-- Its first hash. -/
theorem first_input (h : HashedStore hasher n) {e : Fin n} (clean : ¬Spoiled h.store e)
    (alone : Alone h.store e) :
    sealed hasher entrySeed (own h.store e ++
      (h.store.dependencies e).flatMap (edgeChunks h.first e)) ∈ h.inputs ∧
    h.first e = (sealed hasher entrySeed (own h.store e ++
      (h.store.dependencies e).flatMap (edgeChunks h.first e))).value := by
  constructor
  · apply List.mem_append_left
    rw [List.mem_flatMap]
    refine ⟨e, List.mem_finRange e, ?_⟩
    apply List.mem_append_left
    apply List.mem_append_left
    exact List.mem_map_of_mem (mem_firstChunks _ _ _)
  · have ne : h.first e ≠ 0 := fun isZero => clean ((h.hashed.firstHash e).spoiled isZero)
    rw [← edgeHash_value]
    exact ((h.hashed.firstHash e).alone ne alone).1

theorem mem_names (h : HashedStore hasher n) {e : Fin n} {dep : DependenciesItem n}
    (member : dep ∈ h.store.dependencies e) : (dep.name, dep.nameHash) ∈ h.names := by
  rw [HashedStore.names, List.mem_flatMap]
  exact ⟨e, List.mem_finRange e, List.mem_map_of_mem member⟩

/-! ### Entries that reach no larger component -/

/-- No entry that is reached is on a cycle with others. -/
def Tame (store : Store n) (e : Fin n) : Prop :=
  ∀ x, Reach store.succ e x → Alone store x

theorem Tame.of_succ {store : Store n} {e x : Fin n} (tame : Tame store e)
    (edge : x ∈ store.succ e) : Tame store x :=
  fun y reach => tame y (.head edge reach)

/-- Where edges lead down there are no cycles. -/
theorem tame_of_rank {store : Store n} (rank : Fin n → Nat)
    (down : ∀ e, ∀ x ∈ store.succ e, rank x < rank e) (e : Fin n) : Tame store e := by
  have ranks {a b : Fin n} (reach : Reach store.succ a b) : rank b ≤ rank a ∧
      (rank b = rank a → b = a) := by
    induction reach with
    | refl => exact ⟨Nat.le_refl _, fun _ => rfl⟩
    | tail _ edge ih =>
        have less := down _ _ edge
        exact ⟨by omega, fun same => by omega⟩
  intro x _ y there back
  apply (ranks there).2
  exact Nat.le_antisymm (ranks there).1 (ranks back).1

theorem CollisionFree.symm {h : HashedStore hasher n} {h' : HashedStore hasher n'}
    (free : CollisionFree h h') : CollisionFree h' h where
  inputs x inX y inY := free.inputs x (by simpa [or_comm] using inX) y (by simpa [or_comm] using inY)
  names a inA b inB := free.names a (by simpa [or_comm] using inA) b (by simpa [or_comm] using inB)
  apart a inA x inX := free.apart a (by simpa [or_comm] using inA) x (by simpa [or_comm] using inX)

theorem exists_right {α β : Type} {R : α → β → Prop} {l : List α} {l' : List β}
    (related : List.Forall₂ R l l') {a : α} (member : a ∈ l) : ∃ b ∈ l', R a b := by
  induction related with
  | nil => cases member
  | cons here _ ih =>
      rcases List.mem_cons.mp member with rfl | later
      · exact ⟨_, List.mem_cons_self .., here⟩
      · obtain ⟨b, isMember, isRelated⟩ := ih later
        exact ⟨b, List.mem_cons_of_mem _ isMember, isRelated⟩

section Keys

variable {h : HashedStore hasher n} {h' : HashedStore hasher n'} (free : CollisionFree h h')
variable (text : TextPaths h.store) (text' : TextPaths h'.store)
include free text text'

/-- Equal hashes have equal paths. -/
theorem path_of_hash {x : Fin n} {x' : Fin n'} (clean : ¬Spoiled h.store x)
    (clean' : ¬Spoiled h'.store x') (alone : Alone h.store x) (alone' : Alone h'.store x')
    (same : h.hashes x = h'.hashes x') :
    (h.store.entries x).storePath = (h'.store.entries x').storePath ∧
    List.Forall₂ (fun dep dep' => dep.nameHash = dep'.nameHash ∧
      h.read x dep.entryId = h'.read x' dep'.entryId)
      (h.store.dependencies x) (h'.store.dependencies x') := by
  obtain ⟨isInput, isValue⟩ := final_input h clean alone
  obtain ⟨isInput', isValue'⟩ := final_input h' clean' alone'
  rw [isValue, isValue'] at same
  have chunks := (free.inputs _ (List.mem_append_left _ isInput) _
    (List.mem_append_right _ isInput') same).2
  obtain ⟨isPath, isRest⟩ := own_inj text text' chunks
  exact ⟨isPath, links_inj isRest⟩

/-- The first hash of an entry that depends on itself is not the last hash of another one. -/
theorem first_ne_hash {e : Fin n} {x' : Fin n'} (clean : ¬Spoiled h.store e)
    (clean' : ¬Spoiled h'.store x') (alone : Alone h.store e) (tame' : Tame h'.store x')
    (isSelf : e ∈ h.store.succ e) : h.first e ≠ h'.hashes x' := by
  intro same
  have alone' := tame' x' .refl
  obtain ⟨isInput, isValue⟩ := first_input h clean alone
  obtain ⟨isInput', isValue'⟩ := final_input h' clean' alone'
  rw [isValue, isValue'] at same
  have chunks := (free.inputs _ (List.mem_append_left _ isInput) _
    (List.mem_append_right _ isInput') same).2
  obtain ⟨_, isRest⟩ := own_inj text text' chunks
  apply edges_ne_links _ _ isRest
  · obtain ⟨dep, member, same⟩ := List.mem_map.mp isSelf
    exact ⟨dep, member, same⟩
  · intro dep member dep' member' isName
    have isEdge := mem_succ member'
    have read : ∃ input ∈ h'.inputs, h'.read x' dep'.entryId = input.value := by
      by_cases isSelf' : dep'.entryId = x'
      · obtain ⟨isFirst, isFirstValue⟩ := first_input h' clean' alone'
        refine ⟨_, isFirst, ?_⟩
        rw [isSelf', HashedStore.read, Function.update_self]
        exact isFirstValue
      · have cleanDep : ¬Spoiled h'.store dep'.entryId :=
          fun isSpoiled => clean' (Spoiled.of_succ isEdge isSpoiled)
        obtain ⟨isFinal, isFinalValue⟩ := final_input h' cleanDep (tame' _ (.single isEdge))
        refine ⟨_, isFinal, ?_⟩
        rw [HashedStore.read, Function.update_of_ne isSelf']
        exact isFinalValue
    obtain ⟨input, isInput, isRead⟩ := read
    exact free.apart _ (List.mem_append_left _ (mem_names h member)) input
      (List.mem_append_right _ isInput) (isName.trans isRead)

/-- For entries that reach no larger component the key determines the dependencies and where
they lead to. -/
theorem key_determines {e : Fin n} {e' : Fin n'} (tame : Tame h.store e)
    (tame' : Tame h'.store e') (key : SameKey h h' e e') : SameDependencies h h' e e' := by
  obtain ⟨isPath, isHash, ne⟩ := key
  have clean : ¬Spoiled h.store e := fun isSpoiled => ne ((h.hashed.zero e).mpr isSpoiled)
  have clean' : ¬Spoiled h'.store e' := by
    intro isSpoiled
    rw [isHash] at ne
    exact ne ((h'.hashed.zero e').mpr isSpoiled)
  have links := (path_of_hash free text text' clean clean' (tame e .refl) (tame' e' .refl)
    isHash).2
  have isLink : ∀ dep ∈ h.store.dependencies e, ∀ dep' ∈ h'.store.dependencies e',
      dep.nameHash = dep'.nameHash ∧ h.read e dep.entryId = h'.read e' dep'.entryId →
      SameLink h h' dep dep' := by
    rintro dep member dep' member' ⟨isName, isRead⟩
    have isEdge := mem_succ member
    have isEdge' := mem_succ member'
    have cleanDep : ¬Spoiled h.store dep.entryId :=
      fun isSpoiled => clean (Spoiled.of_succ isEdge isSpoiled)
    have cleanDep' : ¬Spoiled h'.store dep'.entryId :=
      fun isSpoiled => clean' (Spoiled.of_succ isEdge' isSpoiled)
    refine ⟨free.names _ (List.mem_append_left _ (mem_names h member)) _
      (List.mem_append_right _ (mem_names h' member')) isName, ?_⟩
    rw [HashedStore.read, HashedStore.read] at isRead
    by_cases isSelf : dep.entryId = e
    · rw [isSelf, Function.update_self] at isRead
      by_cases isSelf' : dep'.entryId = e'
      · rw [isSelf, isSelf']
        exact ⟨isPath, isHash⟩
      · rw [Function.update_of_ne isSelf'] at isRead
        rw [isSelf] at isEdge
        exact absurd isRead (first_ne_hash free text text' clean cleanDep' (tame e .refl)
          (tame'.of_succ isEdge') isEdge)
    · rw [Function.update_of_ne isSelf] at isRead
      by_cases isSelf' : dep'.entryId = e'
      · rw [isSelf', Function.update_self] at isRead
        rw [isSelf'] at isEdge'
        exact absurd isRead.symm (first_ne_hash free.symm text' text clean' cleanDep
          (tame' e' .refl) (tame.of_succ isEdge) isEdge')
      · rw [Function.update_of_ne isSelf'] at isRead
        exact ⟨(path_of_hash free text text' cleanDep cleanDep' (tame _ (.single isEdge))
          (tame' _ (.single isEdge')) isRead).1, isRead⟩
  constructor
  · intro dep member
    obtain ⟨dep', member', related⟩ := exists_right links member
    exact ⟨dep', member', isLink dep member dep' member' related⟩
  · intro dep' member'
    obtain ⟨dep, member, related⟩ := exists_right links.flip member'
    exact ⟨dep, member, isLink dep member dep' member' related⟩

end Keys

/-! ### Two projects -/

attribute [local instance] two_neZero

/-- `a@1` depends on `x@1`. -/
def chainStore : Store 2 where
  entries
    | 0 => fromRegistry [97, 64, 49] [{ entryId := 1, name := [120], nameHash := 0x4574db9bb646fa01 }]
    | 1 => fromRegistry [120, 64, 49] []

/-- `a@1` and `b@1` depend on each other; `a@1` has the first one for its `x`, and `b@1` the
second one. -/
def crossedStore (xOfA xOfB : Fin 4) : Store 4 where
  entries
    | 0 => fromRegistry [97, 64, 49]
        [{ entryId := 1, name := [98], nameHash := 0x9035502d6f7f2a66 },
          { entryId := xOfA, name := [120], nameHash := 0x4574db9bb646fa01 }]
    | 1 => fromRegistry [98, 64, 49]
        [{ entryId := 0, name := [97], nameHash := 0x69f6286685d0d6e0 },
          { entryId := xOfB, name := [120], nameHash := 0x4574db9bb646fa01 }]
    | 2 => fromRegistry [120, 64, 49] []
    | 3 => fromRegistry [120, 64, 50] []

def chainHashed : HashedStore wyhash 2 where
  store := chainStore
  first
    | 0 => 942215942268522393
    | 1 => 16090234088856535118
  hashes
    | 0 => 942215942268522393
    | 1 => 16090234088856535118
  isFirst := by decide +kernel
  isHashes := by decide +kernel

/-- The same with other numbers. -/
def turnedHashed : HashedStore wyhash 2 where
  store := chainStore.renumber (Equiv.swap 0 1)
  first
    | 0 => 16090234088856535118
    | 1 => 942215942268522393
  hashes
    | 0 => 16090234088856535118
    | 1 => 942215942268522393
  isFirst := by decide +kernel
  isHashes := by decide +kernel

theorem key_determines_sample : SameDependencies chainHashed turnedHashed 0 1 :=
  key_determines ⟨by decide +kernel, by decide +kernel, by decide +kernel⟩
    (by decide +kernel : ∀ e, _) (by decide +kernel : ∀ e, _)
    (tame_of_rank (fun e => 1 - e.val) (by decide) 0) (tame_of_rank (fun e => e.val) (by decide) 1)
    ⟨by decide, by decide, by decide⟩

def crossedHashed : HashedStore wyhash 4 where
  store := crossedStore 2 3
  first
    | 0 => 10319616677745351271
    | 1 => 9711734491485884223
    | 2 => 16090234088856535118
    | 3 => 6858689513920499023
  hashes
    | 0 => 14125757504691266995
    | 1 => 14125757504691266995
    | 2 => 16090234088856535118
    | 3 => 6858689513920499023
  isFirst := by decide +kernel
  isHashes := by decide +kernel

def recrossedHashed : HashedStore wyhash 4 where
  store := crossedStore 3 2
  first
    | 0 => 5947756915503991165
    | 1 => 11730540393090946743
    | 2 => 16090234088856535118
    | 3 => 6858689513920499023
  hashes
    | 0 => 14125757504691266995
    | 1 => 14125757504691266995
    | 2 => 16090234088856535118
    | 3 => 6858689513920499023
  isFirst := by decide +kernel
  isHashes := by decide +kernel

theorem crossed_free : CollisionFree crossedHashed recrossedHashed where
  inputs := by decide +kernel
  names := by decide +kernel
  apart := by decide +kernel

/-- Two projects in which `a@1` and `b@1` have exchanged their `x` use the same directories. -/
theorem key_shared_by_cycles :
    ¬∀ (n n' : Nat) (h : HashedStore wyhash n) (h' : HashedStore wyhash n'),
      CollisionFree h h' → TextPaths h.store → TextPaths h'.store →
      ∀ e e', SameKey h h' e e' → SameDependencies h h' e e' := by
  intro all
  have same := all 4 4 crossedHashed recrossedHashed crossed_free (by decide +kernel : ∀ e, _)
    (by decide +kernel : ∀ e, _) 0 0 ⟨by decide, by decide, by decide⟩
  have differs : ¬SameDependencies crossedHashed recrossedHashed 0 0 := by
    unfold SameDependencies SameLink
    decide
  exact differs same

end Bunx.IsolatedInstall
