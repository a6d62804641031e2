/-
Module: Bunx.Router.MatchRoute
Purpose: Which paths a route matches, and when the matching of its name finds that out.
Trusted boundary: none
Main exports: Path, bindings, misled, outcome, matchLoop_outcome, outcome_right, match_route,
  matchDynamic_routes
-/
import Bunx.Router.RouteNames

namespace Bunx.Router

open Lib

/-! ### Paths that a route matches -/

/-- A path of segments that are not empty. -/
structure Path where
  segments : List Text
  nonempty : segments ≠ []
  valid : ∀ segment ∈ segments, segment ≠ [] ∧ slash ∉ segment

def Path.text (path : Path) : Text := joinWith slash path.segments

/-- The parameters of a route that matches a path. -/
def bindings : List Segment → Ending → List Text → Option (List Param)
  | [], .nothing, [] => some []
  | [], .nothing, _ :: _ => none
  | [], .catchAll _, [] => none
  | [], .catchAll name, segment :: path =>
      some [{ name, value := joinWith slash (segment :: path) }]
  | [], .optionalCatchAll _, [] => some []
  | [], .optionalCatchAll name, segment :: path =>
      some [{ name, value := joinWith slash (segment :: path) }]
  | _ :: _, _, [] => none
  | .static text :: fixed, ending, segment :: path =>
      if segment = text then bindings fixed ending path else none
  | .dynamic name :: fixed, ending, segment :: path =>
      (bindings fixed ending path).map ({ name, value := segment } :: ·)

/-- The parameters of the route if it matches the path. -/
def Route.bindings (route : Route) (path : Path) : Option (List Param) :=
  Router.bindings route.fixed route.ending path.segments

/-! ### Where the matching goes wrong -/

namespace Segment

def isDynamic : Segment → Bool
  | .static _ => false
  | .dynamic _ => true

/-- Static text of a single byte, which is not read at the end of a name. -/
def isSingle : Segment → Bool
  | .static text => text.length = 1
  | .dynamic _ => false

/-- Static text of several bytes. -/
def isLong : Segment → Bool
  | .static text => text.length ≠ 1
  | .dynamic _ => false

def fits : Segment → Text → Bool
  | .static text, segment => segment = text
  | .dynamic _, _ => true

end Segment

/-- Whether the matching goes wrong, where `last` is in front of the segments that are left, and
`found` is whether there are parameters already: as far as both go the segments must fit, then it
is what is left that decides. -/
def misled : Bool → Option Segment → List Segment → Ending → List Text → Bool
  | _, last, [], .nothing, [] => last.any Segment.isSingle
  | found, last, [], .nothing, _ :: _ => found && last.any Segment.isLong
  | found, _, [], .catchAll _, [] => found
  | _, _, [], .catchAll _, _ :: _ => false
  | _, _, [], .optionalCatchAll _, _ => false
  | _, last, next :: fixed, ending, [] =>
      last.any Segment.isDynamic || next.isDynamic ||
        (next.isSingle && decide (fixed = []) && decide (ending = .nothing))
  | found, _, next :: fixed, ending, segment :: path =>
      next.fits segment && misled (found || next.isDynamic) (some next) fixed ending path

def Route.misled (route : Route) (path : Path) : Bool :=
  Router.misled false none route.fixed route.ending path.segments

/-! ### What the matching comes to -/

/-- Where the end of a name is taken to be: in front of a single byte, too. -/
def atEnd (fixed : List Segment) (ending : Ending) : Bool :=
  decide (ending = .nothing) &&
    match fixed with
    | [] => true
    | [next] => next.isSingle
    | _ => false

/-- What the loop comes to, segment by segment. -/
def outcome : List Segment → Ending → List Text → List Param → Bool × List Param
  | [], .nothing, _, params => (false, params)
  | [], .catchAll _, [], params => (false, params)
  | [], .catchAll name, segment :: path, params =>
      (true, params ++ [{ name, value := joinWith slash (segment :: path) }])
  | [], .optionalCatchAll _, [], params => (true, params)
  | [], .optionalCatchAll name, segment :: path, params =>
      (true, params ++ [{ name, value := joinWith slash (segment :: path) }])
  | .static _ :: _, _, [], _ => (false, [])
  | .static text :: fixed, ending, segment :: path, params =>
      if segment ≠ text ∨ (text.length = 1 ∧ fixed = [] ∧ ending = .nothing) then (false, [])
      else if path = [] ∧ atEnd fixed ending = true then (true, params)
      else outcome fixed ending path params
  | .dynamic name :: fixed, ending, segment :: next :: path, params =>
      if atEnd fixed ending then (false, [])
      else outcome fixed ending (next :: path) (params ++ [{ name, value := segment }])
  | .dynamic name :: fixed, ending, path, params =>
      let param : Param := { name, value := joinWith slash path }
      if atEnd fixed ending then (true, params ++ [param])
      else
        match fixed, ending with
        | [], .optionalCatchAll _ => (true, params ++ [param])
        | _, _ => (true, params)

/-- What it should come to. -/
def Right (result : Bool × List Param) (params : List Param) (found : Option (List Param)) : Prop :=
  result = (found.isSome, (found.map (params ++ ·)).getD [])

section Outcome

variable {fixed : List Segment} {ending : Ending} {path : List Text} {params : List Param}
  {last : Option Segment}

/-- What holds where the loop is in front of the segments that are left. -/
structure Reached (last : Option Segment) (fixed : List Segment) (ending : Ending)
    (path : List Text) : Prop where
  more : path = [] → atEnd fixed ending = false ∧ last.any Segment.isDynamic = false
  behind : fixed = [] → ending = .nothing → last.any Segment.isLong = true

theorem atEnd_iff : atEnd fixed ending = true ↔
    ending = .nothing ∧ (fixed = [] ∨ ∃ next, fixed = [next] ∧ next.isSingle = true) := by
  unfold atEnd
  rw [Bool.and_eq_true, decide_eq_true_eq]
  apply and_congr_right
  intro _
  match fixed with
  | [] => simp
  | [next] => simp
  | _ :: _ :: _ => simp

/-- A parameter that is bound goes behind the others. -/
theorem right_cons {result : Bool × List Param} (param : Param) (found : Option (List Param)) :
    Right result params (found.map (param :: ·)) ↔ Right result (params ++ [param]) found := by
  cases found with
  | none => exact Iff.rfl
  | some more => simp [Right]

section Steps

variable {text name segment : Text}

/-- The path has come to its end too early. -/
theorem outcome_right_nil {next : Segment} (notDynamic : last.any Segment.isDynamic = false)
    (notEnd : atEnd (next :: fixed) ending = false) :
    Right (outcome (next :: fixed) ending [] params) params (bindings (next :: fixed) ending []) ↔
      misled (decide (params ≠ [])) last (next :: fixed) ending [] = false := by
  rw [bindings, misled, notDynamic]
  cases next with
  | static text =>
      have notSingle : ((Segment.static text).isSingle && decide (fixed = []) &&
          decide (ending = .nothing)) = false := by
        rw [Bool.eq_false_iff]
        intro single
        simp only [Bool.and_eq_true, decide_eq_true_eq] at single
        obtain ⟨⟨single, isLast⟩, isNothing⟩ := single
        rw [atEnd_iff.mpr ⟨isNothing, .inr ⟨_, by rw [isLast], single⟩⟩] at notEnd
        cases notEnd
      rw [notSingle]
      exact iff_of_true rfl rfl
  | dynamic name =>
      have isFound : (outcome (.dynamic name :: fixed) ending [] params).1 = true := by
        unfold outcome
        dsimp only
        split
        · rfl
        · split
          · rfl
          · rfl
      apply iff_of_false
      · intro right
        have isNone := congrArg Prod.fst right
        rw [isFound] at isNone
        cases isNone
      · simp [Segment.isDynamic]

/-- Static text is in front. -/
theorem outcome_right_static
    (step : Reached (some (.static text)) fixed ending path →
      (Right (outcome fixed ending path params) params (bindings fixed ending path) ↔
        misled (decide (params ≠ [])) (some (.static text)) fixed ending path = false)) :
    Right (outcome (.static text :: fixed) ending (segment :: path) params) params
        (bindings (.static text :: fixed) ending (segment :: path)) ↔
      misled (decide (params ≠ [])) last (.static text :: fixed) ending (segment :: path) =
        false := by
  rw [outcome, bindings, misled]
  by_cases fits : segment = text
  · have isFit : (Segment.static text).fits segment = true := decide_eq_true fits
    rw [if_pos fits, isFit, Bool.true_and]
    show _ ↔ misled (decide (params ≠ []) || false) _ _ _ _ = false
    rw [Bool.or_false]
    by_cases single : text.length = 1 ∧ fixed = [] ∧ ending = .nothing
    · -- the single byte at the end of the name is not read
      rw [if_pos (.inr single)]
      obtain ⟨one, rfl, rfl⟩ := single
      cases path with
      | nil => simp [bindings, misled, Right, Segment.isSingle, one]
      | cons second path => simp [bindings, misled, Right, Segment.isLong, one]
    · have reads : ¬(segment ≠ text ∨ text.length = 1 ∧ fixed = [] ∧ ending = .nothing) := by
        rintro (differ | isSingle)
        · exact differ fits
        · exact single isSingle
      rw [if_neg reads]
      by_cases ends : path = [] ∧ atEnd fixed ending = true
      · rw [if_pos ends]
        obtain ⟨rfl, isEnd⟩ := ends
        rcases atEnd_iff.mp isEnd with ⟨rfl, rfl | ⟨next, rfl, isSingle⟩⟩
        · have several : ¬text.length = 1 := fun one => single ⟨one, rfl, rfl⟩
          simp [bindings, misled, Right, Segment.isSingle, several]
        · simp [bindings, misled, Right, isSingle]
      · rw [if_neg ends]
        apply step
        constructor
        · intro isEmpty
          refine ⟨?_, rfl⟩
          rw [Bool.eq_false_iff]
          exact fun isEnd => ends ⟨isEmpty, isEnd⟩
        · intro noneLeft isNothing
          exact decide_eq_true fun one => single ⟨one, noneLeft, isNothing⟩
  · have noFit : (Segment.static text).fits segment = false := decide_eq_false fits
    rw [if_neg fits, if_pos (.inl fits), noFit]
    exact iff_of_true rfl rfl

/-- A parameter is in front. -/
theorem outcome_right_dynamic
    (step : ∀ more, Reached (some (.dynamic name)) fixed ending path →
      (Right (outcome fixed ending path more) more (bindings fixed ending path) ↔
        misled (decide (more ≠ [])) (some (.dynamic name)) fixed ending path = false)) :
    Right (outcome (.dynamic name :: fixed) ending (segment :: path) params) params
        (bindings (.dynamic name :: fixed) ending (segment :: path)) ↔
      misled (decide (params ≠ [])) last (.dynamic name :: fixed) ending (segment :: path) =
        false := by
  rw [bindings, misled, right_cons]
  show _ ↔ misled (decide (params ≠ []) || true) _ _ _ _ = false
  rw [Bool.or_true]
  cases path with
  | nil =>
      rw [outcome.eq_def]
      dsimp only
      rw [joinWith_single]
      by_cases isEnd : atEnd fixed ending = true
      · rw [if_pos isEnd]
        rcases atEnd_iff.mp isEnd with ⟨rfl, rfl | ⟨next, rfl, isSingle⟩⟩
        · simp [bindings, misled, Right, Segment.isSingle]
        · simp [bindings, misled, Right, isSingle]
      · rw [if_neg isEnd]
        cases fixed with
        | nil =>
            cases ending with
            | nothing => exact absurd rfl isEnd
            | catchAll tail => simp [bindings, misled, Right]
            | optionalCatchAll tail => simp [bindings, misled, Right]
        | cons next fixed => simp [bindings, misled, Right, Segment.isDynamic]
  | cons second path =>
      rw [outcome]
      by_cases isEnd : atEnd fixed ending = true
      · rw [if_pos isEnd]
        rcases atEnd_iff.mp isEnd with ⟨rfl, rfl | ⟨next, rfl, isSingle⟩⟩
        · simp [bindings, misled, Right, Segment.isLong]
        · cases next with
          | dynamic tail => cases isSingle
          | static text =>
              have one : text.length = 1 := of_decide_eq_true isSingle
              by_cases fits : second = text
              · cases path with
                | nil => simp [bindings, misled, Right, Segment.fits, Segment.isSingle, fits, one]
                | cons third path =>
                    simp [bindings, misled, Right, Segment.isLong, fits, one]
              · simp [bindings, misled, Right, Segment.fits, fits]
      · rw [if_neg isEnd]
        have found : decide (params ++ [{ name, value := segment }] ≠ []) = true := by simp
        rw [← found]
        apply step
        constructor
        · exact fun isEmpty => absurd isEmpty (List.cons_ne_nil _ _)
        · intro noneLeft isNothing
          exact absurd (atEnd_iff.mpr ⟨isNothing, .inl noneLeft⟩) isEnd

end Steps

theorem outcome_right (reached : Reached last fixed ending path) (valid : ∀ s ∈ path, s ≠ []) :
    Right (outcome fixed ending path params) params (bindings fixed ending path) ↔
      misled (decide (params ≠ [])) last fixed ending path = false := by
  induction fixed generalizing last path params with
  | nil =>
      cases ending with
      | nothing =>
          cases path with
          | nil =>
              have notEnd := (reached.more rfl).1
              cases notEnd
          | cons segment path =>
              have long := reached.behind rfl rfl
              simp [outcome, bindings, misled, Right, long]
      | catchAll name =>
          cases path with
          | nil => simp [outcome, bindings, misled, Right]
          | cons segment path => simp [outcome, bindings, misled, Right]
      | optionalCatchAll name =>
          cases path with
          | nil => simp [outcome, bindings, misled, Right]
          | cons segment path => simp [outcome, bindings, misled, Right]
  | cons next fixed ih =>
      cases path with
      | nil =>
          obtain ⟨notEnd, notDynamic⟩ := reached.more rfl
          exact outcome_right_nil notDynamic notEnd
      | cons segment path =>
          have validRest : ∀ s ∈ path, s ≠ [] :=
            fun s member => valid s (List.mem_cons_of_mem _ member)
          cases next with
          | static text =>
              exact outcome_right_static fun reachedNext =>
                ih reachedNext validRest
          | dynamic name =>
              exact outcome_right_dynamic fun more reachedNext =>
                ih reachedNext validRest

end Outcome

/-! ### The loop, segment by segment -/

section Loop

variable {hash : Text → Nat} {front frontLower : Text} {fixed : List Segment} {ending : Ending}
  {path : List Text} {params : List Param}

theorem textOf_cons {next : Segment} (more : fixed ≠ [] ∨ ending ≠ .nothing) :
    textOf (next :: fixed) ending = next.text ++ slash :: textOf fixed ending := by
  have nonempty : fixed.map Segment.text ++ ending.texts ≠ [] := by
    rcases more with someFixed | someEnding
    · exact List.append_ne_nil_of_left_ne_nil (by simpa using someFixed) _
    · apply List.append_ne_nil_of_right_ne_nil
      cases ending with
      | nothing => exact absurd rfl someEnding
      | catchAll name => exact List.cons_ne_nil _ _
      | optionalCatchAll name => exact List.cons_ne_nil _ _
  unfold textOf
  rw [List.map_cons, List.cons_append, joinWith_cons nonempty]

theorem textOf_single {next : Segment} : textOf [next] .nothing = next.text := joinWith_single _

theorem text_ne_nil {next : Segment} (valid : next.IsValid) : next.text ≠ [] := by
  cases next with
  | static text => exact valid.1.nonempty
  | dynamic name => exact List.cons_ne_nil _ _

theorem textOf_ne_nil (valid : ∀ s ∈ fixed, s.IsValid) (more : fixed ≠ [] ∨ ending ≠ .nothing) :
    textOf fixed ending ≠ [] := by
  cases fixed with
  | nil =>
      cases ending with
      | nothing =>
          rcases more with none | none
          · exact absurd rfl none
          · exact absurd rfl none
      | catchAll name => exact List.cons_ne_nil _ _
      | optionalCatchAll name => exact List.cons_ne_nil _ _
  | cons next fixed =>
      have nonempty := text_ne_nil (valid next (List.mem_cons_self ..))
      by_cases others : fixed ≠ [] ∨ ending ≠ .nothing
      · rw [textOf_cons others]
        exact List.append_ne_nil_of_left_ne_nil nonempty _
      · rw [not_or, not_not, not_not] at others
        rw [others.1, others.2, textOf_single]
        exact nonempty

theorem texts_lower (ending : Ending) :
    ending.lower.texts = ending.texts.map (List.map toLower) := by
  cases ending with
  | nothing => rfl
  | catchAll name =>
      simp only [Ending.lower, Ending.texts, List.map_cons, List.map_append, List.map_nil]
      rfl
  | optionalCatchAll name =>
      simp only [Ending.lower, Ending.texts, List.map_cons, List.map_append, List.map_nil]
      rfl

theorem lower_ne_nothing (more : fixed ≠ [] ∨ ending ≠ .nothing) :
    fixed.map Segment.lower ≠ [] ∨ ending.lower ≠ .nothing := by
  rcases more with someFixed | someEnding
  · exact .inl (by simpa using someFixed)
  · right
    cases ending with
    | nothing => exact absurd rfl someEnding
    | catchAll name => exact Ending.noConfusion
    | optionalCatchAll name => exact Ending.noConfusion

/-- The name in lower case is that of the segments in lower case. -/
theorem textOf_lower (valid : ∀ s ∈ fixed, s.IsValid) :
    (textOf fixed ending).map toLower = textOf (fixed.map Segment.lower) ending.lower := by
  induction fixed with
  | nil =>
      cases ending with
      | nothing => rfl
      | catchAll name =>
          simp only [textOf, List.map_nil, List.nil_append, texts_lower]
          simp only [Ending.texts, List.map_cons, List.map_nil, joinWith_single]
      | optionalCatchAll name =>
          simp only [textOf, List.map_nil, List.nil_append, texts_lower]
          simp only [Ending.texts, List.map_cons, List.map_nil, joinWith_single]
  | cons next fixed ih =>
      have isLower := Segment.lower_text (valid next (List.mem_cons_self ..))
      by_cases more : fixed ≠ [] ∨ ending ≠ .nothing
      · rw [textOf_cons more, List.map_cons, textOf_cons (lower_ne_nothing more), List.map_append,
          List.map_cons, isLower,
          ih fun s member => valid s (List.mem_cons_of_mem _ member)]
        rfl
      · rw [not_or, not_not, not_not] at more
        rw [more.1, more.2, textOf_single, ← isLower]
        exact textOf_single.symm

/-- The end of a name is near where no more than a byte is left of it. -/
theorem textOf_short (valid : ∀ s ∈ fixed, s.IsValid) :
    (textOf fixed ending).length ≤ 1 ↔ atEnd fixed ending = true := by
  rw [atEnd_iff]
  cases fixed with
  | nil =>
      cases ending with
      | nothing => simp [textOf, Ending.texts]
      | catchAll name => simp [textOf, Ending.texts]
      | optionalCatchAll name => simp [textOf, Ending.texts]
  | cons next fixed =>
      have nonempty := List.length_pos_iff.mpr (text_ne_nil (valid next (List.mem_cons_self ..)))
      by_cases more : fixed ≠ [] ∨ ending ≠ .nothing
      · rw [textOf_cons more, List.length_append, List.length_cons]
        apply iff_of_false
        · omega
        · rintro ⟨isNothing, none | ⟨single, isSingle, _⟩⟩
          · cases none
          · cases isSingle
            rcases more with someFixed | someEnding
            · exact someFixed rfl
            · exact someEnding isNothing
      · rw [not_or, not_not, not_not] at more
        obtain ⟨rfl, rfl⟩ := more
        rw [textOf_single]
        cases next with
        | static text =>
            have positive : 0 < text.length := nonempty
            simp only [Segment.text, Segment.isSingle, List.cons.injEq, and_true, true_and,
              reduceCtorEq, false_or, exists_eq_left', decide_eq_true_eq]
            omega
        | dynamic name => simp [Segment.text, Segment.isSingle]

/-! ### The path -/

section PathText

variable {segment : Text}

theorem firstSegment_cons (noSlash : slash ∉ segment) :
    firstSegment (joinWith slash (segment :: path)) = segment := by
  have stops (rest : Text) (slashed : ∀ c ∈ rest.head?, c = slash) :
      (segment ++ rest).takeWhile (· ≠ slash) = segment := by
    have stopsHere : rest.takeWhile (· ≠ slash) = [] := by
      cases rest with
      | nil => rfl
      | cons c rest => exact List.takeWhile_cons_of_neg (by simpa using slashed c rfl)
    rw [List.takeWhile_append_of_pos, stopsHere, List.append_nil]
    intro c member
    exact decide_eq_true fun isSlash => noSlash (isSlash ▸ member)
  unfold firstSegment
  by_cases last : path = []
  · rw [last, joinWith_single, ← List.append_nil segment]
    exact (stops [] (by simp)).trans (List.append_nil _).symm
  · rw [joinWith_cons last]
    exact stops _ (by simp)

theorem drop_firstSegment :
    (joinWith slash (segment :: path)).drop (segment.length + 1) = joinWith slash path := by
  by_cases last : path = []
  · rw [last, joinWith_single]
    exact List.drop_eq_nil_of_le (Nat.le_succ _)
  · rw [joinWith_cons last, List.drop_append, List.drop_eq_nil_of_le (Nat.le_succ _),
      Nat.add_sub_cancel_left]
    rfl

theorem slash_mem_iff (noSlash : slash ∉ segment) :
    slash ∈ joinWith slash (segment :: path) ↔ path ≠ [] := by
  by_cases last : path = []
  · rw [last, joinWith_single]
    exact iff_of_false noSlash (not_not.mpr rfl)
  · rw [joinWith_cons last]
    exact iff_of_true (List.mem_append_right _ (List.mem_cons_self ..)) last

theorem joinWith_isEmpty (valid : ∀ s ∈ path, s ≠ []) :
    (joinWith slash path).isEmpty = decide (path = []) := by
  rw [Bool.eq_iff_iff, List.isEmpty_iff, decide_eq_true_eq]
  exact joinWith_eq_nil valid

end PathText

/-! ### Turns of the loop -/

/-- A parameter is cut out of the name at the place where it has been read in the name in lower
case. -/
theorem str_middle {before name behind : Text} (nonempty : name ≠ []) {offset : Nat}
    (place : offset = before.length) :
    ({ offset, len := (name.map toLower).length } : TinyPtr).str (before ++ (name ++ behind)) =
      name := by
  have positive : (name.map toLower).length > 0 := by
    rw [List.length_map]
    exact List.length_pos_iff.mpr nonempty
  rw [TinyPtr.str, if_pos positive, place, List.drop_left, List.length_map, List.take_left]

/-- A turn of the loop where there is a pattern. -/
theorem matchLoop_turn {fuel : Nat} {rest restLower : Text} {pattern : Pattern}
    (sameLength : frontLower.length = front.length) (some : rest ≠ [])
    (isPattern : Pattern.init hash (frontLower ++ restLower) frontLower.length = .ok pattern)
    (text : Text) :
    Pattern.matchLoop hash true (front ++ rest) (frontLower ++ restLower) (fuel + 1) front.length
        text params =
      match pattern.value with
      | .static str =>
          if !str.eqlBytes hash (firstSegment text) then Option.some (false, [])
          else
            if (text.drop ((firstSegment text).length + 1)).isEmpty && pattern.isEnd (front ++ rest)
            then Option.some (true, params)
            else
              Pattern.matchLoop hash true (front ++ rest) (frontLower ++ restLower) fuel pattern.len
                (text.drop ((firstSegment text).length + 1)) params
      | .dynamic dynamic =>
          if slash ∈ text then
            if pattern.isEnd (front ++ rest) then Option.some (false, [])
            else
              Pattern.matchLoop hash true (front ++ rest) (frontLower ++ restLower) fuel pattern.len
                (text.drop ((firstSegment text).length + 1))
                (params ++ [{ name := dynamic.str (front ++ rest), value := firstSegment text }])
          else if pattern.isEnd (front ++ rest) then
            Option.some (true, params ++ [{ name := dynamic.str (front ++ rest), value := text }])
          else
            match Pattern.init hash (frontLower ++ restLower) pattern.len with
            | .error _ => none
            | .ok next =>
                match next.value with
                | .optionalCatchAll _ =>
                    Option.some
                      (true, params ++ [{ name := dynamic.str (front ++ rest), value := text }])
                | _ => Option.some (true, params)
      | .catchAll dynamic =>
          if text ≠ [] then
            Option.some (true, params ++ [{ name := dynamic.str (front ++ rest), value := text }])
          else Option.some (false, params)
      | .optionalCatchAll dynamic =>
          if text ≠ [] then
            Option.some (true, params ++ [{ name := dynamic.str (front ++ rest), value := text }])
          else Option.some (true, params) := by
  have inside : front.length < (front ++ rest).length := by
    rw [List.length_append]
    exact Nat.lt_add_of_pos_right (List.length_pos_iff.mpr some)
  rw [Pattern.matchLoop, if_pos inside, ← sameLength, isPattern]
  rfl

/-- The loop at the end of the name. -/
theorem matchLoop_ending {fuel : Nat} (sameLength : frontLower.length = front.length)
    (validEnding : ending.IsValid) (validPath : ∀ s ∈ path, s ≠ []) :
    Pattern.matchLoop hash true (front ++ textOf [] ending)
        (frontLower ++ (textOf [] ending).map toLower) (fuel + 1) front.length
        (joinWith slash path) params = some (outcome [] ending path params) := by
  have isEmpty : joinWith slash path = [] ↔ path = [] := joinWith_eq_nil validPath
  cases ending with
  | nothing =>
      have outside : ¬front.length < (front ++ textOf [] .nothing).length := by
        simp [textOf, Ending.texts]
      rw [Pattern.matchLoop, if_neg outside, outcome]
  | catchAll name =>
      have isText : textOf [] (.catchAll name) =
          openBracket :: dot :: dot :: dot :: (name ++ [closeBracket]) := joinWith_single _
      have isLower : (textOf [] (.catchAll name)).map toLower =
          openBracket :: dot :: dot :: dot :: (name.map toLower ++ [closeBracket]) := by
        rw [isText]
        simp only [List.map_cons, List.map_append, List.map_nil]
        rfl
      have split : openBracket :: dot :: dot :: dot :: (name ++ [closeBracket]) =
          [openBracket, dot, dot, dot] ++ (name ++ [closeBracket]) := rfl
      have place : frontLower.length + 4 = (front ++ [openBracket, dot, dot, dot]).length := by
        simp [sameLength]
      rw [isLower, isText, matchLoop_turn sameLength (List.cons_ne_nil _ _)
        (init_catchAll (IsName.lower validEnding))]
      dsimp only
      rw [split, ← List.append_assoc, str_middle (IsName.nonempty validEnding) place]
      cases path with
      | nil => rfl
      | cons segment path => rw [if_pos (by simp [isEmpty]), outcome]
  | optionalCatchAll name =>
      have isText : textOf [] (.optionalCatchAll name) =
          openBracket :: openBracket :: dot :: dot :: dot ::
            (name ++ [closeBracket, closeBracket]) := joinWith_single _
      have isLower : (textOf [] (.optionalCatchAll name)).map toLower =
          openBracket :: openBracket :: dot :: dot :: dot ::
            (name.map toLower ++ [closeBracket, closeBracket]) := by
        rw [isText]
        simp only [List.map_cons, List.map_append, List.map_nil]
        rfl
      have split : openBracket :: openBracket :: dot :: dot :: dot ::
          (name ++ [closeBracket, closeBracket]) =
          [openBracket, openBracket, dot, dot, dot] ++ (name ++ [closeBracket, closeBracket]) := rfl
      have place : frontLower.length + 5 =
          (front ++ [openBracket, openBracket, dot, dot, dot]).length := by simp [sameLength]
      rw [isLower, isText, matchLoop_turn sameLength (List.cons_ne_nil _ _)
        (init_optionalCatchAll (IsName.lower validEnding))]
      dsimp only
      rw [split, ← List.append_assoc, str_middle (IsName.nonempty validEnding) place]
      cases path with
      | nil => rfl
      | cons segment path => rw [if_pos (by simp [isEmpty]), outcome]

theorem eqlBytes_init (text segment : Text) :
    (HashedString.init hash text).eqlBytes hash segment = decide (segment = text) := by
  unfold HashedString.eqlBytes HashedString.init
  by_cases same : segment = text
  · simp [same]
  · simp [same, Ne.symm same]

theorem eqlBytes_empty {segment : Text} (nonempty : segment ≠ []) :
    HashedString.empty.eqlBytes hash segment = false := by
  simp [HashedString.eqlBytes, HashedString.empty, Ne.symm nonempty]

/-- The path is at an end in front of static text, or it goes on with a segment. -/
theorem matchLoop_text {text rest : Text} {pattern : Pattern}
    (loop : Text → Option (Bool × List Param)) (validPath : ∀ s ∈ path, s ≠ [] ∧ slash ∉ s)
    (nonempty : text ≠ []) (isText : fixed ≠ [] ∨ ending ≠ .nothing ∨ text.length ≠ 1)
    (isEnd : pattern.isEnd (front ++ rest) = atEnd fixed ending)
    (step : ∀ segment behind, path = segment :: behind →
      (behind = [] → atEnd fixed ending = false) →
      loop (joinWith slash behind) = some (outcome fixed ending behind params)) :
    (if !(HashedString.init hash text).eqlBytes hash (firstSegment (joinWith slash path)) then
        some (false, [])
      else if ((joinWith slash path).drop
          ((firstSegment (joinWith slash path)).length + 1)).isEmpty &&
            pattern.isEnd (front ++ rest) then some (true, params)
      else loop ((joinWith slash path).drop
        ((firstSegment (joinWith slash path)).length + 1))) =
      some (outcome (.static text :: fixed) ending path params) := by
  rw [eqlBytes_init]
  cases path with
  | nil =>
      have differ : ¬firstSegment (joinWith slash []) = text := fun same => nonempty same.symm
      rw [decide_eq_false differ]
      rfl
  | cons segment path =>
      obtain ⟨_, noSlash⟩ := validPath segment (List.mem_cons_self ..)
      have validRest : ∀ s ∈ path, s ≠ [] :=
        fun s member => (validPath s (List.mem_cons_of_mem _ member)).1
      rw [firstSegment_cons noSlash, drop_firstSegment, joinWith_isEmpty validRest, outcome, isEnd]
      by_cases same : segment = text
      · have reads : ¬(segment ≠ text ∨ text.length = 1 ∧ fixed = [] ∧ ending = .nothing) := by
          rintro (differ | ⟨one, noneLeft, isNothing⟩)
          · exact differ same
          · rcases isText with someLeft | someEnding | several
            · exact someLeft noneLeft
            · exact someEnding isNothing
            · exact several one
        rw [decide_eq_true same, Bool.not_true, if_neg Bool.false_ne_true, if_neg reads]
        by_cases ends : path = [] ∧ atEnd fixed ending = true
        · have both : (decide (path = []) && atEnd fixed ending) = true := by simpa using ends
          rw [if_pos both, if_pos ends]
        · have notBoth : ¬(decide (path = []) && atEnd fixed ending) = true := by
            simpa using ends
          rw [if_neg notBoth, if_neg ends]
          apply step segment path rfl
          intro isNil
          rw [Bool.eq_false_iff]
          exact fun isEnd => ends ⟨isNil, isEnd⟩
      · rw [decide_eq_false same, Bool.not_false, if_pos rfl, if_pos (.inl same)]

/-- What is behind a parameter, as far as it matters at the end of a path. -/
def NextIs (fixed : List Segment) (ending : Ending) (next : Except PatternParseError Pattern) :
    Prop :=
  ∃ value len, next = .ok { value, len } ∧
    ((∃ param, value = .optionalCatchAll param) ↔
      fixed = [] ∧ ∃ tail, ending = .optionalCatchAll tail)

theorem outcome_others {found plain : Bool × List Param} :
    ¬(fixed = [] ∧ ∃ tail, ending = .optionalCatchAll tail) →
      (match fixed, ending with
        | [], .optionalCatchAll _ => found
        | _, _ => plain) = plain := by
  intro others
  split
  · exact absurd ⟨rfl, _, rfl⟩ others
  · rfl

/-- A parameter takes what is left of the path. -/
theorem outcome_lastParam {name : Text} {next : Except PatternParseError Pattern}
    (short : path.length ≤ 1) (isNext : atEnd fixed ending = false → NextIs fixed ending next) :
    (if atEnd fixed ending then
        some (true, params ++ [{ name, value := joinWith slash path }])
      else
        match next with
        | .error _ => none
        | .ok next =>
            match next.value with
            | .optionalCatchAll _ =>
                some (true, params ++ [{ name, value := joinWith slash path }])
            | _ => some (true, params)) =
      some (outcome (.dynamic name :: fixed) ending path params) := by
  have isOutcome : outcome (.dynamic name :: fixed) ending path params =
      if atEnd fixed ending then (true, params ++ [{ name, value := joinWith slash path }])
      else
        match fixed, ending with
        | [], .optionalCatchAll _ =>
            (true, params ++ [{ name, value := joinWith slash path }])
        | _, _ => (true, params) := by
    match path with
    | [] => rfl
    | [_] => rfl
    | _ :: _ :: _ =>
        simp only [List.length_cons] at short
        omega
  rw [isOutcome]
  by_cases isEnd : atEnd fixed ending = true
  · rw [if_pos isEnd, if_pos isEnd]
  · rw [if_neg isEnd, if_neg isEnd]
    obtain ⟨value, len, rfl, optional⟩ := isNext (Bool.eq_false_iff.mpr isEnd)
    have others (noParam : ¬∃ param, value = .optionalCatchAll param) :
        ¬(fixed = [] ∧ ∃ tail, ending = .optionalCatchAll tail) :=
      fun both => noParam (optional.mpr both)
    dsimp only
    cases value with
    | optionalCatchAll param =>
        obtain ⟨rfl, tail, rfl⟩ := optional.mp ⟨param, rfl⟩
        rfl
    | static str =>
        exact congrArg some (outcome_others (others fun ⟨_, isValue⟩ => by cases isValue)).symm
    | dynamic param =>
        exact congrArg some (outcome_others (others fun ⟨_, isValue⟩ => by cases isValue)).symm
    | catchAll param =>
        exact congrArg some (outcome_others (others fun ⟨_, isValue⟩ => by cases isValue)).symm

/-- A parameter takes a segment, or what is left of the path. -/
theorem matchLoop_param {name rest : Text} {pattern : Pattern} {dynamic : TinyPtr}
    (loop : Text → List Param → Option (Bool × List Param))
    (next : Except PatternParseError Pattern)
    (validPath : ∀ s ∈ path, s ≠ [] ∧ slash ∉ s)
    (isEnd : pattern.isEnd (front ++ rest) = atEnd fixed ending)
    (isName : dynamic.str (front ++ rest) = name)
    (isNext : atEnd fixed ending = false → NextIs fixed ending next)
    (step : ∀ segment second behind, path = segment :: second :: behind →
      atEnd fixed ending = false →
      loop (joinWith slash (second :: behind)) (params ++ [{ name, value := segment }]) =
        some (outcome fixed ending (second :: behind) (params ++ [{ name, value := segment }]))) :
    (if slash ∈ joinWith slash path then
        if pattern.isEnd (front ++ rest) then some (false, [])
        else loop ((joinWith slash path).drop ((firstSegment (joinWith slash path)).length + 1))
          (params ++ [{ name := dynamic.str (front ++ rest)
                        value := firstSegment (joinWith slash path) }])
      else if pattern.isEnd (front ++ rest) then
        some (true, params ++
          [{ name := dynamic.str (front ++ rest), value := joinWith slash path }])
      else
        match next with
        | .error _ => none
        | .ok next =>
            match next.value with
            | .optionalCatchAll _ =>
                some (true, params ++
                  [{ name := dynamic.str (front ++ rest), value := joinWith slash path }])
            | _ => some (true, params)) =
      some (outcome (.dynamic name :: fixed) ending path params) := by
  rw [isEnd, isName]
  cases path with
  | nil =>
      have noSlash : slash ∉ joinWith slash ([] : List Text) := List.not_mem_nil
      rw [if_neg noSlash]
      exact outcome_lastParam (Nat.zero_le _) isNext
  | cons segment path =>
      obtain ⟨_, noSlash⟩ := validPath segment (List.mem_cons_self ..)
      have slashed : slash ∈ joinWith slash (segment :: path) ↔ path ≠ [] := slash_mem_iff noSlash
      cases path with
      | nil =>
          rw [if_neg fun isIn => slashed.mp isIn rfl]
          exact outcome_lastParam (Nat.le_refl _) isNext
      | cons second path =>
          rw [if_pos (slashed.mpr (List.cons_ne_nil _ _)), firstSegment_cons noSlash,
            drop_firstSegment, outcome]
          by_cases isEnd : atEnd fixed ending = true
          · rw [if_pos isEnd, if_pos isEnd]
          · rw [if_neg isEnd, if_neg isEnd]
            exact step segment second path rfl (Bool.eq_false_iff.mpr isEnd)

/-- What is behind a segment. -/
def behindText (fixed : List Segment) (ending : Ending) : Text :=
  if fixed = [] ∧ ending = .nothing then [] else slash :: textOf fixed ending

theorem behindText_more (more : fixed ≠ [] ∨ ending ≠ .nothing) :
    behindText fixed ending = slash :: textOf fixed ending := by
  apply if_neg
  rintro ⟨noneLeft, isNothing⟩
  rcases more with someLeft | someEnding
  · exact someLeft noneLeft
  · exact someEnding isNothing

theorem textOf_behind (next : Segment) :
    textOf (next :: fixed) ending = next.text ++ behindText fixed ending := by
  by_cases more : fixed ≠ [] ∨ ending ≠ .nothing
  · rw [textOf_cons more, behindText_more more]
  · rw [not_or, not_not, not_not] at more
    obtain ⟨rfl, rfl⟩ := more
    rw [textOf_single]
    exact (List.append_nil _).symm

theorem behindText_short (valid : ∀ s ∈ fixed, s.IsValid) :
    (behindText fixed ending).length ≤ 2 ↔ atEnd fixed ending = true := by
  rw [← textOf_short valid]
  by_cases more : fixed ≠ [] ∨ ending ≠ .nothing
  · rw [behindText_more more, List.length_cons]
    exact Nat.succ_le_succ_iff
  · rw [not_or, not_not, not_not] at more
    obtain ⟨rfl, rfl⟩ := more
    exact iff_of_true (Nat.zero_le _) (Nat.zero_le _)

/-- A parameter as it is read in a name in lower case. -/
theorem init_lowerParam {name : Text} (validName : (Segment.dynamic name).IsValid) :
    Pattern.init hash (frontLower ++ (textOf (.dynamic name :: fixed) ending).map toLower)
        frontLower.length =
      .ok
        { value := .dynamic { offset := frontLower.length + 1, len := (name.map toLower).length }
          len := min (frontLower.length + name.length + 3)
            (frontLower.length + (name.length + 2 + (behindText fixed ending).length) - 1) } := by
  have isLower : (textOf (.dynamic name :: fixed) ending).map toLower =
      openBracket :: (name.map toLower ++ closeBracket ::
        (behindText fixed ending).map toLower) := by
    rw [textOf_behind, List.map_append, ← Segment.lower_text validName]
    simp [Segment.lower, Segment.text]
  have lengths : (frontLower ++ openBracket :: (name.map toLower ++ closeBracket ::
      (behindText fixed ending).map toLower)).length =
        frontLower.length + (name.length + 2 + (behindText fixed ending).length) := by
    simp only [List.length_append, List.length_cons, List.length_map]
    omega
  rw [isLower, init_param validName.1.lower (Segment.IsValid.lower validName).2, lengths,
    List.length_map]

/-- What is read in front of segments, or of the end of a name. -/
theorem init_next (valid : ∀ s ∈ fixed, s.IsValid) (validEnding : ending.IsValid)
    (goesOn : atEnd fixed ending = false) :
    NextIs fixed ending
      (Pattern.init hash (frontLower ++ (textOf fixed ending).map toLower) frontLower.length) := by
  cases fixed with
  | nil =>
      cases ending with
      | nothing => cases goesOn
      | catchAll name =>
          have isText : (textOf [] (.catchAll name)).map toLower =
              openBracket :: dot :: dot :: dot :: (name.map toLower ++ [closeBracket]) := by
            rw [textOf_lower valid]
            exact joinWith_single _
          rw [isText]
          exact ⟨_, _, init_catchAll (IsName.lower validEnding), by simp⟩
      | optionalCatchAll name =>
          have isText : (textOf [] (.optionalCatchAll name)).map toLower =
              openBracket :: openBracket :: dot :: dot :: dot ::
                (name.map toLower ++ [closeBracket, closeBracket]) := by
            rw [textOf_lower valid]
            exact joinWith_single _
          rw [isText]
          exact ⟨_, _, init_optionalCatchAll (IsName.lower validEnding), by simp⟩
  | cons next fixed =>
      have validNext := valid next (List.mem_cons_self ..)
      cases next with
      | dynamic name => exact ⟨_, _, init_lowerParam validNext, by simp⟩
      | static text =>
          have isText : text.map toLower = text := lower_eq validNext.2
          have isLower : (textOf (.static text :: fixed) ending).map toLower =
              text ++ (behindText fixed ending).map toLower := by
            rw [textOf_behind, List.map_append]
            exact congrArg (· ++ _) isText
          rw [isLower]
          by_cases more : fixed ≠ [] ∨ ending ≠ .nothing
          · rw [behindText_more more, List.map_cons]
            have rest : (textOf fixed ending).map toLower ≠ [] := by
              have validRest : ∀ s ∈ fixed, s.IsValid :=
                fun s member => valid s (List.mem_cons_of_mem _ member)
              simpa using textOf_ne_nil validRest more
            exact ⟨_, _, init_static validNext.1 rest, by simp⟩
          · rw [not_or, not_not, not_not] at more
            obtain ⟨rfl, rfl⟩ := more
            have several : ¬text.length = 1 := by
              intro one
              have isEnd : atEnd [.static text] .nothing = true := decide_eq_true one
              rw [goesOn] at isEnd
              cases isEnd
            have read : Pattern.init hash (frontLower ++ text) frontLower.length = _ :=
              init_static_last validNext.1
            rw [if_neg several] at read
            have noneBehind : (behindText [] .nothing).map toLower = [] := rfl
            rw [noneBehind, List.append_nil]
            exact ⟨_, _, read, by simp⟩

/-- The loop comes to the outcome, from every place in front of these segments. -/
def LoopRight (hash : Text → Nat) (fixed : List Segment) (ending : Ending) : Prop :=
  ∀ (fuel : Nat) (front frontLower : Text) (path : List Text) (params : List Param),
    frontLower.length = front.length → (∀ s ∈ path, s ≠ [] ∧ slash ∉ s) →
      (path = [] → atEnd fixed ending = false) → fixed.length + 1 ≤ fuel →
        Pattern.matchLoop hash true (front ++ textOf fixed ending)
          (frontLower ++ (textOf fixed ending).map toLower) fuel front.length
          (joinWith slash path) params = some (outcome fixed ending path params)

section Turns

variable {text name : Text}

theorem loopRight_nil (validEnding : ending.IsValid) : LoopRight hash [] ending := by
  intro fuel front frontLower path params sameLength validPath _ enough
  cases fuel with
  | zero => cases enough
  | succ fuel =>
      exact matchLoop_ending sameLength validEnding fun s member => (validPath s member).1

/-- Static text in front of another segment. -/
theorem loopRight_static (validNext : (Segment.static text).IsValid)
    (valid : ∀ s ∈ fixed, s.IsValid) (more : fixed ≠ [] ∨ ending ≠ .nothing)
    (behind : LoopRight hash fixed ending) : LoopRight hash (.static text :: fixed) ending := by
  intro fuel front frontLower path params sameLength validPath _ enough
  cases fuel with
  | zero => cases enough
  | succ fuel =>
      have isText : text.map toLower = text := lower_eq validNext.2
      have someRest := textOf_ne_nil valid more
      have isName : textOf (.static text :: fixed) ending =
          text ++ slash :: textOf fixed ending := textOf_cons more
      have isLower : (textOf (.static text :: fixed) ending).map toLower =
          text ++ slash :: (textOf fixed ending).map toLower := by
        rw [isName, List.map_append, isText, List.map_cons]
        rfl
      have isEnd (value : Value) : Pattern.isEnd
          { value, len := frontLower.length + text.length + 1 }
          (front ++ (text ++ slash :: textOf fixed ending)) = atEnd fixed ending := by
        rw [Bool.eq_iff_iff, ← textOf_short valid, Pattern.isEnd, decide_eq_true_eq, sameLength]
        simp only [List.length_append, List.length_cons]
        omega
      rw [isLower, isName, matchLoop_turn sameLength (by simp)
        (init_static validNext.1 (by simpa using someRest))]
      apply matchLoop_text (fun path => Pattern.matchLoop hash true
        (front ++ (text ++ slash :: textOf fixed ending))
        (frontLower ++ (text ++ slash :: (textOf fixed ending).map toLower)) fuel
        (frontLower.length + text.length + 1) path params) validPath validNext.1.nonempty
        (more.imp_right .inl) (isEnd _)
      intro segment rest isPath goesOn
      have step := behind fuel (front ++ text ++ [slash]) (frontLower ++ text ++ [slash]) rest
        params (by simp [sameLength])
        (fun s member => validPath s (by rw [isPath]; exact List.mem_cons_of_mem _ member)) goesOn
        (Nat.le_of_succ_le_succ enough)
      simp only [List.append_assoc, List.singleton_append, List.length_append, List.length_cons,
        List.length_nil] at step
      rw [sameLength, Nat.add_assoc]
      exact step

/-- Static text at the end of the name. -/
theorem loopRight_static_last (validNext : (Segment.static text).IsValid) :
    LoopRight hash [.static text] .nothing := by
  intro fuel front frontLower path params sameLength validPath goesOn enough
  cases fuel with
  | zero => cases enough
  | succ fuel =>
      have isText : text.map toLower = text := lower_eq validNext.2
      have isName : textOf [.static text] .nothing = text := textOf_single
      rw [isName, isText, matchLoop_turn sameLength validNext.1.nonempty
        (init_static_last validNext.1)]
      by_cases one : text.length = 1
      · rw [if_pos one]
        cases path with
        | nil =>
            have isEnd : atEnd [.static text] .nothing = true := decide_eq_true one
            rw [goesOn rfl] at isEnd
            cases isEnd
        | cons segment path =>
            obtain ⟨nonempty, noSlash⟩ := validPath segment (List.mem_cons_self ..)
            dsimp only
            rw [firstSegment_cons noSlash, eqlBytes_empty nonempty, Bool.not_false, if_pos rfl,
              outcome, if_pos (Or.inr ⟨one, rfl, rfl⟩)]
      · rw [if_neg one]
        have isEnd (value : Value) : Pattern.isEnd { value, len := (frontLower ++ text).length }
            (front ++ text) = atEnd [] .nothing := by
          apply decide_eq_true
          rw [List.length_append, List.length_append, sameLength]
          exact Nat.sub_le _ _
        apply matchLoop_text (fun path => Pattern.matchLoop hash true (front ++ text)
          (frontLower ++ text) fuel (frontLower ++ text).length path params) validPath
          validNext.1.nonempty (.inr (.inr one)) (isEnd _)
        intro segment rest isPath goesOn
        have nothingBehind : LoopRight hash [] .nothing := loopRight_nil trivial
        have step := nothingBehind fuel (front ++ text) (frontLower ++ text) rest params
          (by simp [sameLength])
          (fun s member => validPath s (by rw [isPath]; exact List.mem_cons_of_mem _ member)) goesOn
          (Nat.le_of_succ_le_succ enough)
        have noName : textOf [] .nothing = [] := rfl
        rw [noName, List.map_nil, List.append_nil, List.append_nil] at step
        rw [List.length_append, sameLength, ← List.length_append]
        exact step

/-- A parameter. -/
theorem loopRight_dynamic (validNext : (Segment.dynamic name).IsValid)
    (valid : ∀ s ∈ fixed, s.IsValid) (validEnding : ending.IsValid)
    (behind : LoopRight hash fixed ending) : LoopRight hash (.dynamic name :: fixed) ending := by
  intro fuel front frontLower path params sameLength validPath _ enough
  cases fuel with
  | zero => cases enough
  | succ fuel =>
      have isText : textOf (.dynamic name :: fixed) ending =
          [openBracket] ++ (name ++ closeBracket :: behindText fixed ending) := by
        rw [textOf_behind]
        simp [Segment.text]
      have lengths : (textOf (.dynamic name :: fixed) ending).length =
          name.length + 2 + (behindText fixed ending).length := by
        rw [isText]
        simp only [List.length_append, List.length_cons, List.length_nil]
        omega
      have short : (behindText fixed ending).length ≤ 2 ↔ atEnd fixed ending = true :=
        behindText_short valid
      have isEnd (value : Value) : Pattern.isEnd
          { value, len := min (frontLower.length + name.length + 3)
              (frontLower.length + (name.length + 2 + (behindText fixed ending).length) - 1) }
          (front ++ textOf (.dynamic name :: fixed) ending) = atEnd fixed ending := by
        rw [Bool.eq_iff_iff, ← short, Pattern.isEnd, decide_eq_true_eq, List.length_append, lengths,
          sameLength]
        dsimp only
        omega
      have isName : ({ offset := frontLower.length + 1, len := (name.map toLower).length } :
          TinyPtr).str (front ++ textOf (.dynamic name :: fixed) ending) = name := by
        rw [isText, ← List.append_assoc]
        exact str_middle validNext.1.nonempty (by simp [sameLength])
      -- the place behind the parameter and its slash
      have place (goesOn : atEnd fixed ending = false) :
          textOf (.dynamic name :: fixed) ending =
            openBracket :: name ++ [closeBracket, slash] ++ textOf fixed ending ∧
          min (frontLower.length + name.length + 3)
              (frontLower.length + (name.length + 2 + (behindText fixed ending).length) - 1) =
            (frontLower ++ (openBracket :: name ++ [closeBracket, slash]).map toLower).length := by
        have more : fixed ≠ [] ∨ ending ≠ .nothing := by
          by_contra none
          rw [not_or, not_not, not_not] at none
          rw [atEnd_iff.mpr ⟨none.2, .inl none.1⟩] at goesOn
          cases goesOn
        have notShort : ¬(behindText fixed ending).length ≤ 2 := fun isShort => by
          rw [short.mp isShort] at goesOn
          cases goesOn
        constructor
        · rw [isText, behindText_more more]
          simp
        · simp only [List.length_append, List.length_map, List.length_cons, List.length_nil]
          omega
      rw [matchLoop_turn sameLength (by rw [isText]; simp) (init_lowerParam validNext)]
      apply matchLoop_param (fun path params => Pattern.matchLoop hash true
        (front ++ textOf (.dynamic name :: fixed) ending)
        (frontLower ++ (textOf (.dynamic name :: fixed) ending).map toLower) fuel
        (min (frontLower.length + name.length + 3)
          (frontLower.length + (name.length + 2 + (behindText fixed ending).length) - 1)) path
        params) _ validPath (isEnd _) isName
      · intro goesOn
        obtain ⟨isWhole, isPlace⟩ := place goesOn
        dsimp only
        rw [isPlace, isWhole, List.map_append, ← List.append_assoc]
        exact init_next valid validEnding goesOn
      · intro segment second rest isPath goesOn
        obtain ⟨isWhole, isPlace⟩ := place goesOn
        have step := behind fuel (front ++ (openBracket :: name ++ [closeBracket, slash]))
          (frontLower ++ (openBracket :: name ++ [closeBracket, slash]).map toLower)
          (second :: rest) (params ++ [{ name, value := segment }])
          (by simp only [List.length_append, List.length_map, sameLength])
          (fun s member => validPath s (by rw [isPath]; exact List.mem_cons_of_mem _ member))
          (fun isNil => absurd isNil (List.cons_ne_nil _ _)) (Nat.le_of_succ_le_succ enough)
        have sameLengths : (frontLower ++
            (openBracket :: name ++ [closeBracket, slash]).map toLower).length =
              (front ++ (openBracket :: name ++ [closeBracket, slash])).length := by
          simp only [List.length_append, List.length_map, sameLength]
        dsimp only
        rw [isPlace, isWhole, List.map_append, ← List.append_assoc front,
          ← List.append_assoc frontLower, sameLengths]
        exact step

end Turns

/-- The loop comes to the outcome. -/
theorem loopRight (valid : ∀ s ∈ fixed, s.IsValid) (validEnding : ending.IsValid) :
    LoopRight hash fixed ending := by
  induction fixed with
  | nil => exact loopRight_nil validEnding
  | cons next fixed ih =>
      have validNext := valid next (List.mem_cons_self ..)
      have validRest : ∀ s ∈ fixed, s.IsValid :=
        fun s member => valid s (List.mem_cons_of_mem _ member)
      have behind := ih validRest
      cases next with
      | dynamic name => exact loopRight_dynamic validNext validRest validEnding behind
      | static text =>
          by_cases more : fixed ≠ [] ∨ ending ≠ .nothing
          · exact loopRight_static validNext validRest more behind
          · rw [not_or, not_not, not_not] at more
            obtain ⟨rfl, rfl⟩ := more
            exact loopRight_static_last validNext

end Loop

/-! ### Matching routes -/

theorem fixed_le_text {fixed : List Segment} {ending : Ending} (valid : ∀ s ∈ fixed, s.IsValid) :
    fixed.length ≤ (textOf fixed ending).length := by
  induction fixed with
  | nil => exact Nat.zero_le _
  | cons next fixed ih =>
      have validRest : ∀ s ∈ fixed, s.IsValid :=
        fun s member => valid s (List.mem_cons_of_mem _ member)
      have behind := ih validRest
      have positive := List.length_pos_iff.mpr (text_ne_nil (valid next (List.mem_cons_self ..)))
      by_cases more : fixed ≠ [] ∨ ending ≠ .nothing
      · rw [textOf_cons more, List.length_append, List.length_cons, List.length_cons]
        omega
      · rw [not_or, not_not, not_not] at more
        obtain ⟨rfl, rfl⟩ := more
        rw [textOf_single]
        exact positive

/-- What the matching of a route comes to. -/
theorem match_outcome (hash : Text → Nat) (route : Route) (path : Path) (params : List Param) :
    Pattern.match_ hash true path.text route.text (route.text.map toLower) params =
      some (outcome route.fixed route.ending path.segments params) := by
  have enough : route.fixed.length ≤ route.text.length := fixed_le_text route.fixedValid
  exact loopRight route.fixedValid route.endingValid _ [] [] path.segments params rfl path.valid
    (fun isNil => absurd isNil path.nonempty) (Nat.succ_le_succ enough)

theorem outcome_route (route : Route) (path : Path) :
    Right (outcome route.fixed route.ending path.segments []) [] (route.bindings path) ↔
      route.misled path = false := by
  apply outcome_right _ fun s member => (path.valid s member).1
  constructor
  · exact fun isNil => absurd isNil path.nonempty
  · intro noneLeft isNothing
    rcases route.nonempty with someLeft | someEnding
    · exact absurd noneLeft someLeft
    · exact absurd isNothing someEnding

/-- The name of a route, and the one that is matched. -/
def Route.names (route : Route) : Text × Text := (route.text, route.text.map toLower)

/-- The first of some routes that matches a path, and its parameters. -/
def firstMatch (path : Path) : List Route → Option Nat × List Param
  | [] => (none, [])
  | route :: routes =>
      match route.bindings path with
      | some params => (some 0, params)
      | none => ((firstMatch path routes).1.map (· + 1), (firstMatch path routes).2)

/-- The routes are tried in turn, and only the parameters of the one that matches are left. -/
theorem matchDynamic_first (hash : Text → Nat) (path : Path) {routes : List Route}
    (right : ∀ route ∈ routes, route.misled path = false) :
    matchDynamic hash path.text (routes.map Route.names) [] = some (firstMatch path routes) := by
  induction routes with
  | nil => rfl
  | cons route routes ih =>
      have isRight := (outcome_route route path).mpr (right route (List.mem_cons_self ..))
      have behind := ih fun other member =>
        right other (List.mem_cons_of_mem _ member)
      rw [List.map_cons, Route.names, matchDynamic, match_outcome, isRight, firstMatch]
      cases route.bindings path with
      | some params => rfl
      | none =>
          show (matchDynamic hash path.text (routes.map Route.names) []).bind _ = _
          rw [behind]
          rfl

/-- A path is matched as the name of the route has it if and only if the matching is not misled;
where no route misleads it, only the parameters of the first one that matches are left. -/
theorem match_route (hash : Text → Nat) (path : Path) :
    (∀ route : Route,
      Pattern.match_ hash true path.text route.text (route.text.map toLower) [] =
          some ((route.bindings path).isSome, (route.bindings path).getD []) ↔
        route.misled path = false) ∧
    ∀ routes : List Route, (∀ route ∈ routes, route.misled path = false) →
      matchDynamic hash path.text (routes.map Route.names) [] = some (firstMatch path routes) := by
  refine ⟨fun route => ?_, fun routes right => matchDynamic_first hash path right⟩
  rw [match_outcome, ← outcome_route, Option.some_inj]
  unfold Right
  cases route.bindings path with
  | none => exact Iff.rfl
  | some params => exact Iff.rfl

/-- The name `[a]/b` does not match the path `x/b`, since in front of the last byte the name is
taken to be at its end. -/
theorem byte_behind_parameter : ∃ route : Route, ∃ path : Path,
    route.text = [0x5B, 0x61, 0x5D, 0x2F, 0x62] ∧ path.text = [0x78, 0x2F, 0x62] ∧
      Pattern.validate (fun _ => 0) route.text = .ok { paramCount := 1, kind := .dynamic } ∧
      route.bindings path = some [{ name := [0x61], value := [0x78] }] ∧
      Pattern.match_ (fun _ => 0) true path.text route.text (route.text.map toLower) [] =
        some (false, []) := by
  refine ⟨⟨[.dynamic [0x61], .static [0x62]], .nothing, ?_, trivial, .inl (List.cons_ne_nil _ _)⟩,
    ⟨[[0x78], [0x62]], List.cons_ne_nil _ _, ?_⟩, ?_⟩
  · intro s member
    rcases List.mem_cons.mp member with rfl | isLast
    · exact ⟨⟨List.cons_ne_nil _ _, by decide +kernel⟩, by decide +kernel⟩
    · rw [List.mem_singleton.mp isLast]
      exact ⟨⟨List.cons_ne_nil _ _, by decide +kernel⟩, by decide +kernel⟩
  · decide +kernel
  · decide +kernel

end Bunx.Router
