-- SUMMARY: What the error limit of a build keeps: the outcomes of the first inputs.
import Offside.Build

/-! # The error limit of a build

A build looks at its limit before each input, and the errors it compares with
the limit only grow. So the limit cuts the inputs once: up to the cut every
outcome is kept, behind it none is (`parseFrom_of_reached`), and the cut stands
where the errors of what is kept reach the limit: `cuts_parseFrom`. A limit that is reached later cuts
later: `prefix_parseFrom`. -/

namespace Offside

namespace Build

/-! ## Outcomes -/

/-- What an input gives: a unit, or the error of bytes that are no text. -/
def Input.outcome (options : Options) (input : Input) : ParsedUnit ⊕ Error :=
  match Source.parseUtf8 options input.bytes with
  | .ok parsed => .inl ⟨input.path, parsed⟩
  | .error diagnostic => .inr (.undecodable input.path diagnostic)

/-- The number of errors of an input: the problems of its text, or that it is none. -/
def Input.errorCount (options : Options) (input : Input) : Nat :=
  match input.outcome options with
  | .inl unit => unit.parsed.diagnostics.length
  | .inr _ => 1

/-- The units that inputs give, in the order of the inputs. -/
def unitsOf (options : Options) (inputs : List Input) : List ParsedUnit :=
  inputs.filterMap fun input => (input.outcome options).getLeft?

/-- The errors of the inputs that are no texts, in the order of the inputs. -/
def faultsOf (options : Options) (inputs : List Input) : List Error :=
  inputs.filterMap fun input => (input.outcome options).getRight?

/-- The number of errors of some inputs together. -/
def errorCountOf (options : Options) : List Input → Nat
  | [] => 0
  | input :: inputs => input.errorCount options + errorCountOf options inputs

section

variable (options : Options) (input : Input) (inputs : List Input)

theorem unitsOf_cons : unitsOf options (input :: inputs) =
    unitsOf options [input] ++ unitsOf options inputs :=
  List.filterMap_append (l := [input])

theorem faultsOf_cons : faultsOf options (input :: inputs) =
    faultsOf options [input] ++ faultsOf options inputs :=
  List.filterMap_append (l := [input])

/-- An input has as many errors as its outcome shows. -/
theorem problemCount_unitsOf_singleton : problemCount (unitsOf options [input]) +
    (faultsOf options [input]).length = input.errorCount options := by
  unfold unitsOf faultsOf Input.errorCount
  cases h : input.outcome options <;> simp [problemCount, h]

theorem problemCount_append (units units' : List ParsedUnit) :
    problemCount (units ++ units') = problemCount units + problemCount units' := by
  simp [problemCount]

/-- So do several inputs. -/
theorem problemCount_unitsOf : problemCount (unitsOf options inputs) +
    (faultsOf options inputs).length = errorCountOf options inputs := by
  induction inputs with
  | nil => rfl
  | cons input inputs ih =>
    have hfirst := problemCount_unitsOf_singleton options input
    rw [unitsOf_cons, faultsOf_cons, problemCount_append, List.length_append, errorCountOf]
    omega

end

/-- The result with the outcome of `input` before all others. -/
def Result.prepend (options : Options) (input : Input) (r : Result) : Result :=
  ⟨unitsOf options [input] ++ r.units, faultsOf options [input] ++ r.errors, r.skipped⟩

/-! ## Limits -/

/-- The limit is reached when there are `seen` errors. Without a limit it never is. -/
def Reached (limit : Option Nat) (seen : Nat) : Prop := ∃ most ∈ limit, most ≤ seen

theorem any_iff_reached {limit : Option Nat} {seen : Nat} :
    limit.any (· ≤ seen) = true ↔ Reached limit seen := by
  simp [Reached, Option.any_eq_true]

/-- `limit` is no greater than `limit'`, no limit being the greatest. -/
def AtMost (limit limit' : Option Nat) : Prop := ∀ most' ∈ limit', ∃ most ∈ limit, most ≤ most'

theorem AtMost.reached {limit limit' : Option Nat} (h : AtMost limit limit') {seen : Nat}
    (hreached : Reached limit' seen) : Reached limit seen := by
  obtain ⟨most', hmost', hle'⟩ := hreached
  obtain ⟨most, hmost, hle⟩ := h most' hmost'
  exact ⟨most, hmost, Nat.le_trans hle hle'⟩

section

variable {config : Config} {seen : Nat} {input : Input} {inputs : List Input}

/-- A limit that has been reached stays so: an input that is dropped adds no error, so
none of those behind it is kept either. -/
theorem parseFrom_of_reached (h : Reached config.errorLimit seen) :
    parseFrom config seen inputs = ⟨[], [], inputs.length⟩ := by
  induction inputs with
  | nil => rfl
  | cons input inputs ih =>
    rw [parseFrom, if_pos (any_iff_reached.2 h), ih]
    rfl

/-- Before the limit is reached, an input adds its outcome and its errors. -/
theorem parseFrom_of_not_reached (h : ¬ Reached config.errorLimit seen) :
    parseFrom config seen (input :: inputs) =
      (parseFrom config (seen + input.errorCount config.parse) inputs).prepend
        config.parse input := by
  rw [parseFrom, if_neg (h ∘ any_iff_reached.1)]
  simp only [Input.errorCount, Result.prepend, unitsOf, faultsOf, Input.outcome]
  split <;> rename_i hparse <;> simp [hparse]

end

/-! ## The cut -/

/-- The inputs before those that were dropped. -/
def Result.kept (r : Result) (inputs : List Input) : List Input :=
  inputs.take (inputs.length - r.skipped)

/-- The result has the outcomes of the inputs up to a cut, which stands where the
limit is reached, when `seen` errors stand before the inputs. -/
structure Cuts (config : Config) (seen : Nat) (inputs : List Input) (r : Result) : Prop where
  skipped_le : r.skipped ≤ inputs.length
  units : r.units = unitsOf config.parse (r.kept inputs)
  errors : r.errors = faultsOf config.parse (r.kept inputs)
  below : ∀ before input after, r.kept inputs = before ++ input :: after →
    ¬ Reached config.errorLimit (seen + errorCountOf config.parse before)
  reached : 0 < r.skipped →
    Reached config.errorLimit (seen + errorCountOf config.parse (r.kept inputs))

/-- An input before the cut. -/
theorem Cuts.prepend {config : Config} {seen : Nat} {input : Input} {inputs : List Input}
    {r : Result} (hseen : ¬ Reached config.errorLimit seen)
    (h : Cuts config (seen + input.errorCount config.parse) inputs r) :
    Cuts config seen (input :: inputs) (r.prepend config.parse input) := by
  have hkept : (r.prepend config.parse input).kept (input :: inputs) = input :: r.kept inputs := by
    rw [Result.kept, List.length_cons, Result.prepend, Nat.succ_sub h.skipped_le,
      List.take_succ_cons, Result.kept]
  refine ⟨Nat.le_succ_of_le h.skipped_le, ?_, ?_, fun before first after hbefore => ?_,
    fun hskipped => ?_⟩
  · rw [hkept, unitsOf_cons, ← h.units]
    rfl
  · rw [hkept, faultsOf_cons, ← h.errors]
    rfl
  · rw [hkept] at hbefore
    cases before with
    | nil => exact hseen
    | cons _ before =>
      obtain ⟨rfl, hrest⟩ := List.cons.inj hbefore
      rw [errorCountOf, ← Nat.add_assoc]
      exact h.below _ _ _ hrest
  · rw [hkept, errorCountOf, ← Nat.add_assoc]
    exact h.reached hskipped

theorem cuts_parseFrom (config : Config) (seen : Nat) (inputs : List Input) :
    Cuts config seen inputs (parseFrom config seen inputs) := by
  induction inputs generalizing seen with
  | nil => exact ⟨Nat.le_refl 0, rfl, rfl, by simp [Result.kept], by simp [parseFrom]⟩
  | cons input inputs ih =>
    by_cases hseen : Reached config.errorLimit seen
    · rw [parseFrom_of_reached hseen]
      exact ⟨Nat.le_refl _, by simp [Result.kept, unitsOf], by simp [Result.kept, faultsOf],
        by simp [Result.kept], by simpa [Result.kept, errorCountOf] using hseen⟩
    · rw [parseFrom_of_not_reached hseen]
      exact (ih _).prepend hseen

/-- A greater limit keeps all that a smaller one keeps. -/
theorem prefix_parseFrom {config : Config} {limit : Option Nat}
    (hlimit : AtMost config.errorLimit limit) (seen : Nat) (inputs : List Input) :
    let r := parseFrom config seen inputs
    let r' := parseFrom { config with errorLimit := limit } seen inputs
    r.units <+: r'.units ∧ r.errors <+: r'.errors := by
  induction inputs generalizing seen with
  | nil => exact ⟨List.prefix_refl _, List.prefix_refl _⟩
  | cons input inputs ih =>
    by_cases hseen : Reached config.errorLimit seen
    · rw [parseFrom_of_reached hseen]
      exact ⟨List.nil_prefix, List.nil_prefix⟩
    · have hseen' : ¬ Reached limit seen := fun h => hseen (hlimit.reached h)
      obtain ⟨hunits, herrors⟩ := ih (seen + input.errorCount config.parse)
      rw [parseFrom_of_not_reached hseen, parseFrom_of_not_reached hseen']
      exact ⟨(List.prefix_append_right_inj _).2 hunits, (List.prefix_append_right_inj _).2 herrors⟩

/-! ## Builds -/

/-- A build keeps the outcomes of its first inputs, in their order: units, and
errors behind the earlier ones. Each of these inputs was reached with fewer
errors than the limit, and if any input is dropped the errors of the result have
reached the limit. A greater limit keeps all that a smaller one keeps. -/
theorem ofInputs_limit (config : Config) (inputs : List Input) (earlier : List Error) :
    let r := ofInputs config inputs earlier
    let kept := inputs.take (inputs.length - r.skipped)
    r.skipped ≤ inputs.length ∧ r.units = unitsOf config.parse kept ∧
      r.errors = earlier ++ faultsOf config.parse kept ∧
      (∀ before input after, kept = before ++ input :: after →
        ¬ Reached config.errorLimit (earlier.length + errorCountOf config.parse before)) ∧
      (0 < r.skipped → Reached config.errorLimit r.errorCount) ∧
      ∀ limit, AtMost config.errorLimit limit →
        let r' := ofInputs { config with errorLimit := limit } inputs earlier
        r.units <+: r'.units ∧ r.errors <+: r'.errors := by
  intro r kept
  have hcuts := cuts_parseFrom config earlier.length inputs
  have herrors : r.errors = earlier ++ faultsOf config.parse kept :=
    congrArg (earlier ++ ·) hcuts.errors
  have hcount : r.errorCount = earlier.length + errorCountOf config.parse kept := by
    have hunits : r.units = unitsOf config.parse kept := hcuts.units
    have hkept := problemCount_unitsOf config.parse kept
    rw [Result.errorCount, herrors, hunits, List.length_append]
    omega
  refine ⟨hcuts.skipped_le, hcuts.units, herrors, hcuts.below, fun hskipped => ?_,
    fun limit hlimit => ?_⟩
  · rw [hcount]
    exact hcuts.reached hskipped
  · obtain ⟨hunits, hfaults⟩ := prefix_parseFrom hlimit earlier.length inputs
    exact ⟨hunits, (List.prefix_append_right_inj _).2 hfaults⟩

/-- A text without problems, bytes that are no text, a text with a problem and one
more text: a limit of one drops the last two, a limit of two the last. -/
theorem ofInputs_limit_mixed :
    let inputs : List Input := [⟨"a", "x = y".toUTF8.toList⟩, ⟨"b", [0xff]⟩,
      ⟨"c", "data where".toUTF8.toList⟩, ⟨"d", "z = w".toUTF8.toList⟩]
    let r := ofInputs { errorLimit := some 1 } inputs []
    let r' := ofInputs { errorLimit := some 2 } inputs []
    AtMost (some 1) (some 2) ∧ r.skipped = 2 ∧ r'.skipped = 1 ∧ Reached (some 1) r.errorCount ∧
      r.units <+: r'.units ∧ r.errors <+: r'.errors := by
  intro inputs r r'
  obtain ⟨-, -, -, -, hreached, hgreater⟩ := ofInputs_limit { errorLimit := some 1 } inputs []
  have hatMost : AtMost (some 1) (some 2) := by simp [AtMost]
  have hskipped : r.skipped = 2 := by decide +kernel
  have hskipped' : r'.skipped = 1 := by decide +kernel
  exact ⟨hatMost, hskipped, hskipped', hreached (hskipped ▸ Nat.two_pos), hgreater _ hatMost⟩

end Build

end Offside
