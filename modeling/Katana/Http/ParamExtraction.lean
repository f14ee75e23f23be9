import Katana.Http.Negotiation
import Katana.Http.Router

/-!
# Parameters of the query and of the cookie

`query_param` and `cookie_param` look one name up, `extract_query_params` and
`extract_cookie_params` all names of an array of targets in one scan.  The two kinds
differ in the separator of the parts and in how a part is read.  A target points to
the place of its value, or nowhere; several targets may point to one place.
-/

namespace Katana
namespace Http

open Library
open Serde (trimView)

def EQUALS : Byte := 61
def AMPERSAND : Byte := 38

structure NamedParamTarget (P : Type*) where
  name : List Byte
  value : Option P

/-- The value at every place that a target can point to. -/
abbrev ParamOutputs (P : Type*) := P → Option (List Byte)

/-! ## One name -/

/-- Name and value of a part of the query. -/
def queryPart (part : List Byte) : Option (List Byte × List Byte) :=
  let name := part.takeWhile (· ≠ EQUALS)
  if EQUALS ∈ part then some (name, part.drop (name.length + 1)) else some (name, [])

/-- Name and value of a part of the cookie; a part without `=` is passed over. -/
def cookiePart (token : List Byte) : Option (List Byte × List Byte) :=
  let name := token.takeWhile (· ≠ EQUALS)
  if EQUALS ∈ token then some (trimView name, trimView (token.drop (name.length + 1))) else none

section Scan

variable (separator : Byte) (readPart : List Byte → Option (List Byte × List Byte))

def lookupPass (key rest : List Byte) : Pass (List Byte) (Option (List Byte)) :=
  if rest = [] then .done none
  else
    match (readPart (rest.takeWhile (· ≠ separator))).filter (·.1 = key) with
    | some (_, value) => .done (some value)
    | none =>
        match rest.dropWhile (· ≠ separator) with
        | [] => .done none
        | _ :: rest => .again rest

def lookupParam (text : Option (List Byte)) (key : List Byte) : Option (List Byte) :=
  match text with
  | none => none
  | some text => evalLoop (lookupPass separator readPart key) List.length (fun _ => none) text

/-! ## All names -/

variable {P : Type*} [DecidableEq P]

def clearTarget (s : ParamOutputs P × ℕ) (target : NamedParamTarget P) : ParamOutputs P × ℕ :=
  match target.value with
  | some place => (Function.update s.1 place none, s.2 + 1)
  | none => s

def clearTargets (targets : List (NamedParamTarget P)) (outputs : ParamOutputs P) :
    ParamOutputs P × ℕ :=
  targets.foldl clearTarget (outputs, 0)

/-- The loop over the targets for one part. -/
def fillTarget (name value : List Byte) :
    List (NamedParamTarget P) → ParamOutputs P × ℕ → ParamOutputs P × ℕ
  | [], s => s
  | target :: targets, s =>
      match target.value with
      | none => fillTarget name value targets s
      | some place =>
          if (s.1 place).isSome then fillTarget name value targets s
          else if target.name = name then (Function.update s.1 place (some value), s.2 - 1)
          else fillTarget name value targets s

structure Extraction (P : Type*) where
  rest : List Byte
  found : ParamOutputs P × ℕ

def extractPass (targets : List (NamedParamTarget P)) (s : Extraction P) :
    Pass (Extraction P) (ParamOutputs P) :=
  if s.rest = [] ∨ s.found.2 = 0 then .done s.found.1
  else
    let found :=
      match readPart (s.rest.takeWhile (· ≠ separator)) with
      | some (name, value) => fillTarget name value targets s.found
      | none => s.found
    match s.rest.dropWhile (· ≠ separator) with
    | [] => .done found.1
    | _ :: rest => .again { rest := rest, found := found }

def extractParams (text : Option (List Byte)) (targets : List (NamedParamTarget P))
    (outputs : ParamOutputs P) : ParamOutputs P :=
  let cleared := clearTargets targets outputs
  if cleared.2 = 0 then cleared.1
  else
    match text with
    | none => cleared.1
    | some text =>
        evalLoop (extractPass separator readPart targets) (·.rest.length) (·.found.1)
          { rest := text, found := cleared }

end Scan

/-- What follows the first question mark. -/
def queryOf (uri : List Byte) : Option (List Byte) :=
  if QUESTION ∈ uri then some (uri.drop ((uri.takeWhile (· ≠ QUESTION)).length + 1)) else none

def queryParam (uri key : List Byte) : Option (List Byte) :=
  lookupParam AMPERSAND queryPart (queryOf uri) key

def extractQueryParams {P : Type*} [DecidableEq P] (uri : List Byte)
    (targets : List (NamedParamTarget P)) (outputs : ParamOutputs P) : ParamOutputs P :=
  extractParams AMPERSAND queryPart (queryOf uri) targets outputs

def Request.cookie (memory : List Byte) (req : Request) : Option (List Byte) :=
  (req.headers.getField .cookie).map (·.read memory)

def cookieParam (memory : List Byte) (req : Request) (key : List Byte) : Option (List Byte) :=
  lookupParam SEMICOLON cookiePart (req.cookie memory) key

def extractCookieParams {P : Type*} [DecidableEq P] (memory : List Byte) (req : Request)
    (targets : List (NamedParamTarget P)) (outputs : ParamOutputs P) : ParamOutputs P :=
  extractParams SEMICOLON cookiePart (req.cookie memory) targets outputs

/-! ## Targets that wait for a value -/

section Targets

variable {P : Type*} {targets : List (NamedParamTarget P)} {target : NamedParamTarget P}
  {outputs : ParamOutputs P} {name value : List Byte} {place : P}

def NamedParamTarget.waits (outputs : ParamOutputs P) (target : NamedParamTarget P) : Bool :=
  target.value.any fun place => (outputs place).isNone

/-- No other target points to the place of this one. -/
def NamedParamTarget.Owns (targets : List (NamedParamTarget P)) (target : NamedParamTarget P)
    (place : P) : Prop :=
  target ∈ targets ∧ target.value = some place ∧
    ∀ other ∈ targets, other.value = some place → other = target

def DistinctNames (targets : List (NamedParamTarget P)) : Prop :=
  (targets.map (·.name)).Nodup

theorem DistinctNames.eq (h : DistinctNames targets) {other : NamedParamTarget P}
    (htarget : target ∈ targets) (hother : other ∈ targets) (hname : other.name = target.name) :
    other = target :=
  List.inj_on_of_nodup_map h hother htarget hname

theorem waits_of_value (hvalue : target.value = some place) :
    target.waits outputs = (outputs place).isNone := by
  rw [NamedParamTarget.waits, hvalue]
  rfl

variable [DecidableEq P]

/-- A part fills the first target of its name that waits, if there is one. -/
theorem fillTarget_cases (name value : List Byte) (targets : List (NamedParamTarget P))
    (s : ParamOutputs P × ℕ) :
    (fillTarget name value targets s = s ∧
      ∀ target ∈ targets, target.waits s.1 = true → target.name ≠ name) ∨
    ∃ target ∈ targets, ∃ place, target.value = some place ∧ s.1 place = none ∧
      target.name = name ∧
      fillTarget name value targets s = (Function.update s.1 place (some value), s.2 - 1) := by
  induction targets with
  | nil => exact .inl ⟨rfl, fun _ htarget => absurd htarget List.not_mem_nil⟩
  | cons target targets ih =>
    have hskip (hfill : fillTarget name value (target :: targets) s =
        fillTarget name value targets s)
        (hwaits : target.waits s.1 = true → target.name ≠ name) :
        (fillTarget name value (target :: targets) s = s ∧
          ∀ other ∈ target :: targets, other.waits s.1 = true → other.name ≠ name) ∨
        ∃ other ∈ target :: targets, ∃ place, other.value = some place ∧ s.1 place = none ∧
          other.name = name ∧ fillTarget name value (target :: targets) s =
            (Function.update s.1 place (some value), s.2 - 1) := by
      rw [hfill]
      rcases ih with ⟨hsame, hnone⟩ | ⟨other, hother, hplace⟩
      · refine .inl ⟨hsame, fun other hother => ?_⟩
        rcases List.mem_cons.mp hother with rfl | hmem
        · exact hwaits
        · exact hnone other hmem
      · exact .inr ⟨other, List.mem_cons_of_mem _ hother, hplace⟩
    cases hvalue : target.value with
    | none =>
      apply hskip
      · simp only [fillTarget, hvalue]
      · simp [NamedParamTarget.waits, hvalue]
    | some place =>
      have hwaits : target.waits s.1 = (s.1 place).isNone := waits_of_value hvalue
      cases hplace : s.1 place with
      | some old =>
        rw [hplace] at hwaits
        apply hskip
        · simp [fillTarget, hvalue, hplace]
        · simp [hwaits]
      | none =>
        by_cases hname : target.name = name
        · refine .inr ⟨target, List.mem_cons_self, place, hvalue, hplace, hname, ?_⟩
          simp [fillTarget, hvalue, hplace, hname]
        · apply hskip
          · simp [fillTarget, hvalue, hplace, hname]
          · exact fun _ => hname

/-- The scan does not end before a target that waits is filled. -/
def Extraction.Counts (targets : List (NamedParamTarget P)) (found : ParamOutputs P × ℕ) : Prop :=
  targets.countP (NamedParamTarget.waits found.1) ≤ found.2

theorem waits_update (hwaits : target.waits (Function.update outputs place (some value)) = true) :
    target.waits outputs = true ∧ target.value ≠ some place := by
  cases hvalue : target.value with
  | none =>
    rw [NamedParamTarget.waits, hvalue] at hwaits
    exact absurd hwaits Bool.false_ne_true
  | some other =>
    rw [waits_of_value hvalue] at hwaits ⊢
    by_cases hsame : other = place
    · simp [hsame] at hwaits
    · rw [Function.update_of_ne hsame] at hwaits
      simpa [hsame] using hwaits

theorem Extraction.Counts.fillTarget {found : ParamOutputs P × ℕ}
    (h : Extraction.Counts targets found) (name value : List Byte) :
    Extraction.Counts targets (fillTarget name value targets found) := by
  rcases fillTarget_cases name value targets found with ⟨hsame, -⟩ | hfilled
  · rwa [hsame]
  obtain ⟨target, hmem, place, hvalue, hplace, -, hfill⟩ := hfilled
  rw [hfill]
  obtain ⟨front, back, rfl⟩ := List.append_of_mem hmem
  have hmono (part : List (NamedParamTarget P)) :
      part.countP (NamedParamTarget.waits (Function.update found.1 place (some value))) ≤
        part.countP (NamedParamTarget.waits found.1) :=
    List.countP_mono_left fun other _ hwaits => (waits_update hwaits).1
  have hbefore : target.waits found.1 = true := by
    rw [waits_of_value hvalue, hplace]
    rfl
  have hafter : ¬target.waits (Function.update found.1 place (some value)) = true :=
    fun hwaits => (waits_update hwaits).2 hvalue
  have hfront := hmono front
  have hback := hmono back
  unfold Extraction.Counts at h ⊢
  rw [List.countP_append, List.countP_cons_of_pos hbefore] at h
  rw [List.countP_append, List.countP_cons_of_neg hafter]
  dsimp only
  omega

/-- What a part does to the place that belongs to a target. -/
theorem fillTarget_place {found : ParamOutputs P × ℕ} (hnames : DistinctNames targets)
    (howns : target.Owns targets place) (name value : List Byte) :
    (fillTarget name value targets found).1 place =
      (found.1 place).or (if name = target.name then some value else none) := by
  obtain ⟨hmem, hvalue, hown⟩ := howns
  rcases fillTarget_cases name value targets found with ⟨hsame, hnone⟩ | hfilled
  · rw [hsame]
    by_cases hname : name = target.name
    · have hwaits := fun hwaits => hnone target hmem hwaits hname.symm
      rw [waits_of_value hvalue, Option.isNone_iff_eq_none] at hwaits
      obtain ⟨old, hold⟩ := Option.ne_none_iff_exists'.mp hwaits
      rw [hold, Option.some_or]
    · rw [if_neg hname, Option.or_none]
  · obtain ⟨filled, hfilled, other, hother, hempty, hname, hfill⟩ := hfilled
    rw [hfill]
    by_cases hsame : filled = target
    · have hplace : other = place := by
        rw [hsame, hvalue] at hother
        exact (Option.some.inj hother).symm
      rw [hplace] at hempty
      dsimp only
      rw [hplace, Function.update_self, hempty, Option.none_or, if_pos (hsame ▸ hname.symm)]
    · have hdiffers : name ≠ target.name := fun heq =>
        hsame (hnames.eq hmem hfilled (hname.trans heq))
      have hplace : place ≠ other := by
        intro heq
        exact hsame (hown filled hfilled (heq ▸ hother))
      dsimp only
      rw [Function.update_of_ne hplace, if_neg hdiffers, Option.or_none]

/-! ## The places before the scan -/

theorem foldl_clearTarget_count (targets : List (NamedParamTarget P)) (s : ParamOutputs P × ℕ) :
    (targets.foldl clearTarget s).2 = s.2 + targets.countP (·.value.isSome) := by
  induction targets generalizing s with
  | nil => rfl
  | cons target targets ih =>
    rw [List.foldl_cons, ih, List.countP_cons, clearTarget]
    cases target.value with
    | none => rfl
    | some place => simp only [Option.isSome_some, if_true]; omega

theorem foldl_clearTarget_none (targets : List (NamedParamTarget P)) {s : ParamOutputs P × ℕ}
    (h : s.1 place = none ∨ ∃ target ∈ targets, target.value = some place) :
    (targets.foldl clearTarget s).1 place = none := by
  induction targets generalizing s with
  | nil => simpa using h
  | cons target targets ih =>
    rw [List.foldl_cons]
    apply ih
    unfold clearTarget
    rw [List.exists_mem_cons_iff] at h
    cases hvalue : target.value with
    | none =>
      rw [hvalue] at h
      simpa using h
    | some other =>
      by_cases hsame : place = other
      · exact .inl (by simp [hsame])
      · rw [hvalue] at h
        simpa [Function.update_of_ne hsame, Ne.symm hsame] using h

theorem counts_clearTargets (targets : List (NamedParamTarget P)) (outputs : ParamOutputs P) :
    Extraction.Counts targets (clearTargets targets outputs) := by
  unfold Extraction.Counts
  rw [clearTargets, foldl_clearTarget_count, Nat.zero_add]
  apply List.countP_mono_left
  intro target _ hwaits
  cases hvalue : target.value with
  | none =>
    rw [NamedParamTarget.waits, hvalue] at hwaits
    exact hwaits
  | some place => rfl

omit [DecidableEq P] in
/-- A target that owns its place is counted while the place is empty. -/
theorem Extraction.Counts.positive {found : ParamOutputs P × ℕ}
    (h : Extraction.Counts targets found) (howns : target.Owns targets place)
    (hempty : found.1 place = none) : found.2 ≠ 0 := by
  have hpos : 0 < targets.countP (NamedParamTarget.waits found.1) := by
    rw [List.countP_pos_iff]
    refine ⟨target, howns.1, ?_⟩
    rw [waits_of_value howns.2.1, hempty]
    rfl
  unfold Extraction.Counts at h
  omega

end Targets

/-! ## The scans -/

section Scans

variable {separator : Byte} {readPart : List Byte → Option (List Byte × List Byte)}
  {P : Type*} {targets : List (NamedParamTarget P)} {target : NamedParamTarget P} {place : P}

theorem length_behind_separator {rest behind : List Byte} {c : Byte}
    (h : rest.dropWhile (· ≠ separator) = c :: behind) : behind.length < rest.length := by
  have hlength := (List.dropWhile_suffix (p := (· ≠ separator)) (l := rest)).length_le
  rw [h, List.length_cons] at hlength
  omega

theorem lookupPass_decreases (key : List Byte) :
    Decreases (lookupPass separator readPart key) List.length := by
  intro rest next hpass
  unfold lookupPass at hpass
  split_ifs at hpass
  split at hpass
  next => cases hpass
  next =>
    split at hpass
    next => cases hpass
    next hbehind =>
      cases hpass
      exact length_behind_separator hbehind

variable [DecidableEq P]

theorem extractPass_decreases :
    Decreases (extractPass separator readPart targets) (·.rest.length) := by
  intro s next hpass
  unfold extractPass at hpass
  split_ifs at hpass
  dsimp only at hpass
  split at hpass
  next => cases hpass
  next hbehind =>
    cases hpass
    exact length_behind_separator hbehind

/-- The value that a part gives a name. -/
def partValue (readPart : List Byte → Option (List Byte × List Byte)) (key part : List Byte) :
    Option (List Byte) :=
  ((readPart part).filter (·.1 = key)).map (·.2)

theorem lookupPass_eq {key rest : List Byte} (hrest : rest ≠ []) :
    lookupPass separator readPart key rest =
      match partValue readPart key (rest.takeWhile (· ≠ separator)) with
      | some value => .done (some value)
      | none =>
          match rest.dropWhile (· ≠ separator) with
          | [] => .done none
          | _ :: rest => .again rest := by
  rw [lookupPass, if_neg hrest, partValue]
  cases (readPart (rest.takeWhile (· ≠ separator))).filter (·.1 = key) with
  | none => rfl
  | some pair => rfl

/-- The scan for all targets ends with what the scan for one name finds. -/
theorem extract_lookup (hnames : DistinctNames targets) (howns : target.Owns targets place)
    (rest : List Byte) (found : ParamOutputs P × ℕ) (hcounts : Extraction.Counts targets found) :
    ∃ outputs result,
      EndsWith (extractPass separator readPart targets) { rest := rest, found := found } outputs ∧
      EndsWith (lookupPass separator readPart target.name) rest result ∧
      outputs place = (found.1 place).or result := by
  induction hlength : rest.length using Nat.strong_induction_on generalizing rest found with
  | _ length ih =>
    by_cases hempty : rest = []
    · refine ⟨found.1, none, .of_done ?_, .of_done ?_, Option.or_none.symm⟩
      · rw [extractPass, if_pos (.inl hempty)]
      · rw [lookupPass, if_pos hempty]
    by_cases hfilled : found.2 = 0
    · have hdecreases : Decreases (lookupPass separator readPart target.name) List.length :=
        lookupPass_decreases target.name
      obtain ⟨result, hresult⟩ := exists_endsWith hdecreases rest
      refine ⟨found.1, result, .of_done ?_, hresult, ?_⟩
      · rw [extractPass, if_pos (.inr hfilled)]
      · cases hplace : found.1 place with
        | none => exact absurd hfilled (hcounts.positive howns hplace)
        | some value => rfl
    let part := rest.takeWhile (· ≠ separator)
    let found' := match readPart part with
      | some (name, value) => fillTarget name value targets found
      | none => found
    have hplace : found'.1 place =
        (found.1 place).or (partValue readPart target.name part) := by
      simp only [found', partValue]
      cases readPart part with
      | none => exact Option.or_none.symm
      | some pair =>
        dsimp only
        rw [fillTarget_place hnames howns, Option.filter_some]
        by_cases hname : pair.1 = target.name <;> simp [hname]
    have hcounts' : Extraction.Counts targets found' := by
      simp only [found']
      cases readPart part with
      | none => exact hcounts
      | some pair => exact hcounts.fillTarget pair.1 pair.2
    have hextract : extractPass separator readPart targets { rest := rest, found := found } =
        match rest.dropWhile (· ≠ separator) with
        | [] => .done found'.1
        | _ :: rest => .again { rest := rest, found := found' } := by
      rw [extractPass, if_neg (not_or.mpr ⟨hempty, hfilled⟩)]
    have hlookup : lookupPass separator readPart target.name rest = _ := lookupPass_eq hempty
    cases hbehind : rest.dropWhile (· ≠ separator) with
    | nil =>
      rw [hbehind] at hextract hlookup
      refine ⟨found'.1, partValue readPart target.name part, .of_done hextract, ?_, hplace⟩
      cases hhere : partValue readPart target.name part with
      | none => exact .of_done (by rw [hlookup, hhere])
      | some value => exact .of_done (by rw [hlookup, hhere])
    | cons c behind =>
      rw [hbehind] at hextract hlookup
      obtain ⟨outputs, result, houtputs, hresult, heq⟩ :=
        ih _ (hlength ▸ length_behind_separator hbehind) behind found' hcounts' rfl
      rw [hplace] at heq
      have hagain : EndsWith (extractPass separator readPart targets)
          { rest := rest, found := found } outputs :=
        .of_passes (.head hextract (.refl _)) houtputs
      cases hhere : partValue readPart target.name part with
      | none =>
        rw [hhere, Option.or_none] at heq
        refine ⟨outputs, result, hagain, .of_passes (.head ?_ (.refl _)) hresult, heq⟩
        rw [hlookup, hhere]
      | some value =>
        rw [hhere, Option.or_assoc, Option.some_or] at heq
        exact ⟨outputs, some value, hagain, .of_done (by rw [hlookup, hhere]), heq⟩

theorem extractParams_place (hnames : DistinctNames targets) (howns : target.Owns targets place)
    (text : Option (List Byte)) (outputs : ParamOutputs P) :
    extractParams separator readPart text targets outputs place =
      lookupParam separator readPart text target.name := by
  have hcounts := counts_clearTargets targets outputs
  have hcleared : (clearTargets targets outputs).1 place = none :=
    foldl_clearTarget_none targets (.inr ⟨target, howns.1, howns.2.1⟩)
  unfold extractParams lookupParam
  rw [if_neg (hcounts.positive howns hcleared)]
  cases text with
  | none => exact hcleared
  | some text =>
    obtain ⟨final, result, hfinal, hresult, heq⟩ := extract_lookup hnames howns text _ hcounts
    dsimp only
    rw [evalLoop_eq extractPass_decreases hfinal, evalLoop_eq (lookupPass_decreases _) hresult, heq,
      hcleared, Option.none_or]

/-- Where names are distinct, each target that has its place to itself is given what the
lookup of its name finds. -/
theorem extractParams_agree (hnames : DistinctNames targets) (howns : target.Owns targets place)
    (outputs : ParamOutputs P) :
    (∀ uri, extractQueryParams uri targets outputs place = queryParam uri target.name) ∧
      ∀ memory req, extractCookieParams memory req targets outputs place =
        cookieParam memory req target.name :=
  ⟨fun uri => extractParams_place hnames howns (queryOf uri) outputs,
    fun memory req => extractParams_place hnames howns (req.cookie memory) outputs⟩

end Scans

section Places

def namedA : NamedParamTarget Bool :=
  { name := bytesOf "a", value := some true }

def namedB (place : Bool) : NamedParamTarget Bool :=
  { name := bytesOf "b", value := some place }

theorem extractParams_agree_apart :
    DistinctNames [namedA, namedB false] ∧ namedA.Owns [namedA, namedB false] true ∧
    (∀ uri, extractQueryParams uri [namedA, namedB false] (fun _ => none) true =
      queryParam uri namedA.name) ∧
    ∀ memory req, extractCookieParams memory req [namedA, namedB false] (fun _ => none) true =
      cookieParam memory req namedA.name := by
  have hnames : DistinctNames [namedA, namedB false] := by
    unfold DistinctNames
    decide
  have howns : namedA.Owns [namedA, namedB false] true := by
    refine ⟨List.mem_cons_self, rfl, ?_⟩
    simp [namedA, namedB]
  exact ⟨hnames, howns, extractParams_agree hnames howns _⟩

/-- Two targets that point to one place cannot both be given their values. -/
theorem sharedPlace_differs :
    (([namedA, namedB true].map (·.name)).Nodup) ∧
      extractQueryParams (bytesOf "/?a=1&b=2") [namedA, namedB true] (fun _ => none) true ≠
        queryParam (bytesOf "/?a=1&b=2") (namedB true).name := by
  decide +kernel

end Places

end Http
end Katana
