import Katana.Http.Bytes

/-!
# Date-times

`is_valid_datetime` looks at the bytes of a date and a time at fixed places, then passes
over a fraction and asks for a zone behind it.
-/

namespace Katana
namespace Validation

open Http (Byte bytesOf isDigit)

def DOT : Byte := 0x2e
def LETTER_Z : Byte := 0x5a

/-! ## The check -/

def isDigitAt (v : List Byte) (i : ℕ) : Bool :=
  v[i]?.any (isDigit 10)

/-- The first nineteen bytes. -/
def hasDate (v : List Byte) : Bool :=
  [0, 1, 2, 3, 5, 6, 8, 9, 11, 12, 14, 15, 17, 18].all (isDigitAt v) &&
    !(v[4]? ≠ some 0x2d || v[7]? ≠ some 0x2d || v[10]? ≠ some 0x54 || v[13]? ≠ some 0x3a ||
      v[16]? ≠ some 0x3a)

/-- The position behind the fraction; none if the text ends with the dot. -/
def behindFraction (v : List Byte) : Option ℕ :=
  if 19 < v.length ∧ v[19]? = some DOT then
    if v.length ≤ 20 then none
    else some (20 + ((v.drop 20).takeWhile (isDigit 10)).length)
  else some 19

def hasZone (v : List Byte) (pos : ℕ) : Bool :=
  if v.length ≤ pos then false
  else if v[pos]? = some LETTER_Z then pos + 1 = v.length
  else if v[pos]? = some 0x2b || v[pos]? = some 0x2d then
    if v.length ≤ pos + 5 then false
    else if !isDigitAt v (pos + 1) || !isDigitAt v (pos + 2) then false
    else if v[pos + 3]? ≠ some 0x3a then false
    else if !isDigitAt v (pos + 4) || !isDigitAt v (pos + 5) then false
    else pos + 6 = v.length
  else false

def isValidDatetime (v : List Byte) : Bool :=
  if v.length < 20 then false
  else if !hasDate v then false
  else
    match behindFraction v with
    | none => false
    | some pos => hasZone v pos

/-! ## Date-times -/

/-- The byte `d` of a template stands for a digit, every other one for itself. -/
def Follows (template text : List Byte) : Prop :=
  List.Forall₂ (fun t c => if t = 0x64 then isDigit 10 c = true else c = t) template text

def IsDate (text : List Byte) : Prop :=
  Follows (bytesOf "dddd-dd-ddTdd:dd:dd") text

def IsZone (text : List Byte) : Prop :=
  text = [LETTER_Z] ∨ Follows (bytesOf "+dd:dd") text ∨ Follows (bytesOf "-dd:dd") text

/-- A date and a time, digits behind a dot if there is one, and a zone. -/
def IsDateTime (v : List Byte) : Prop :=
  ∃ date fraction zone, IsDate date ∧
    (fraction = [] ∨ ∃ digits, digits ≠ [] ∧ (∀ c ∈ digits, isDigit 10 c = true) ∧
      fraction = DOT :: digits) ∧
    IsZone zone ∧ v = date ++ fraction ++ zone

theorem IsDate.length {text : List Byte} (h : IsDate text) : text.length = 19 := by
  have hlength := List.Forall₂.length_eq h
  rw [← hlength]
  rfl

theorem hasDate_iff {date : List Byte} (hlength : date.length = 19) (rest : List Byte) :
    hasDate (date ++ rest) = true ↔ IsDate date := by
  rcases date with _ | ⟨c0, _ | ⟨c1, _ | ⟨c2, _ | ⟨c3, _ | ⟨c4, _ | ⟨c5, _ | ⟨c6, _ | ⟨c7,
    _ | ⟨c8, _ | ⟨c9, _ | ⟨c10, _ | ⟨c11, _ | ⟨c12, _ | ⟨c13, _ | ⟨c14, _ | ⟨c15, _ | ⟨c16,
    _ | ⟨c17, _ | ⟨c18, _ | ⟨c19, more⟩⟩⟩⟩⟩⟩⟩⟩⟩⟩⟩⟩⟩⟩⟩⟩⟩⟩⟩⟩
  all_goals try simp at hlength
  have htemplate : bytesOf "dddd-dd-ddTdd:dd:dd" = [0x64, 0x64, 0x64, 0x64, 0x2d, 0x64, 0x64, 0x2d,
      0x64, 0x64, 0x54, 0x64, 0x64, 0x3a, 0x64, 0x64, 0x3a, 0x64, 0x64] := by
    decide
  simp [hasDate, isDigitAt, IsDate, Follows, htemplate]
  tauto

/-- A zone begins with the letter or with a sign. -/
theorem IsZone.head {zone : List Byte} (h : IsZone zone) :
    ∃ c rest, zone = c :: rest ∧ c ≠ DOT ∧ isDigit 10 c = false := by
  have hsigned : ∀ sign : Byte, sign ≠ 0x64 → sign ≠ DOT → isDigit 10 sign = false →
      Follows (sign :: bytesOf "dd:dd") zone →
      ∃ c rest, zone = c :: rest ∧ c ≠ DOT ∧ isDigit 10 c = false := by
    intro sign hletter hdot hdigit hfollows
    cases hfollows with
    | cons hfirst _ =>
        rw [if_neg hletter] at hfirst
        subst hfirst
        exact ⟨_, _, rfl, hdot, hdigit⟩
  rcases h with rfl | hplus | hminus
  · exact ⟨LETTER_Z, [], rfl, by decide, by decide⟩
  · exact hsigned 0x2b (by decide) (by decide) (by decide) hplus
  · exact hsigned 0x2d (by decide) (by decide) (by decide) hminus

theorem hasZone_iff (front zone : List Byte) :
    hasZone (front ++ zone) front.length = true ↔ IsZone zone := by
  have hget : ∀ k, (front ++ zone)[front.length + k]? = zone[k]? := by
    intro k
    rw [List.getElem?_append_right (Nat.le_add_right _ _), Nat.add_sub_cancel_left]
  have hfirst : (front ++ zone)[front.length]? = zone[0]? := hget 0
  have hplus : bytesOf "+dd:dd" = [0x2b, 0x64, 0x64, 0x3a, 0x64, 0x64] := by decide
  have hminus : bytesOf "-dd:dd" = [0x2d, 0x64, 0x64, 0x3a, 0x64, 0x64] := by decide
  have hsign : ∀ c : Byte, c = 0x2b ∨ c = 0x2d → c ≠ LETTER_Z := by
    intro c hc
    rcases hc with rfl | rfl <;> decide
  simp only [hasZone, isDigitAt, hget, hfirst, List.length_append, IsZone, Follows, hplus, hminus]
  rcases zone with _ | ⟨c0, _ | ⟨c1, _ | ⟨c2, _ | ⟨c3, _ | ⟨c4, _ | ⟨c5, _ | ⟨c6, more⟩⟩⟩⟩⟩⟩⟩
  all_goals simp
  · constructor
    · rintro ⟨-, hplus | hminus, ⟨h1, h2⟩, h3, h4, h5⟩
      · exact .inl ⟨hplus, h1, h2, h3, h4, h5⟩
      · exact .inr ⟨hminus, h1, h2, h3, h4, h5⟩
    · rintro (⟨hplus, h1, h2, h3, h4, h5⟩ | ⟨hminus, h1, h2, h3, h4, h5⟩)
      · exact ⟨hsign c0 (.inl hplus), .inl hplus, ⟨h1, h2⟩, h3, h4, h5⟩
      · exact ⟨hsign c0 (.inr hminus), .inr hminus, ⟨h1, h2⟩, h3, h4, h5⟩

/-! ## What is accepted -/

/-- Digits behind a dot, if there is one; they may be missing. -/
def IsLooseFraction (fraction : List Byte) : Prop :=
  fraction = [] ∨ ∃ digits, (∀ c ∈ digits, isDigit 10 c = true) ∧ fraction = DOT :: digits

theorem behindFraction_eq {date fraction zone : List Byte} (hdate : date.length = 19)
    (hfraction : IsLooseFraction fraction) (hzone : IsZone zone) :
    behindFraction (date ++ fraction ++ zone) = some (date ++ fraction).length := by
  rcases hzone.head with ⟨c, rest, rfl, hdot, hdigit⟩
  have hget : ∀ behind : List Byte, (date ++ behind)[19]? = behind[0]? := by
    intro behind
    rw [← hdate, List.getElem?_append_right le_rfl, Nat.sub_self]
  rcases hfraction with rfl | ⟨digits, hdigits, rfl⟩
  · simp [behindFraction, hdot, hdate]
  · have hdrop : (date ++ DOT :: digits ++ c :: rest).drop 20 = digits ++ c :: rest := by
      rw [List.append_assoc, List.drop_append]
      simp [hdate]
    have hrun : (digits ++ c :: rest).takeWhile (isDigit 10) = digits := by
      rw [List.takeWhile_append_of_pos hdigits, List.takeWhile_cons_of_neg (by simp [hdigit]),
        List.append_nil]
    unfold behindFraction
    rw [hdrop, hrun, List.append_assoc, hget, if_pos, if_neg]
    · simp only [List.length_append, List.length_cons, hdate, Option.some.injEq]
      omega
    · simp only [List.length_append, List.length_cons, hdate]
      omega
    · simp [hdate]

theorem isValidDatetime_iff (v : List Byte) :
    isValidDatetime v = true ↔ ∃ date fraction zone, IsDate date ∧ IsLooseFraction fraction ∧
      IsZone zone ∧ v = date ++ fraction ++ zone := by
  constructor
  · intro h
    unfold isValidDatetime at h
    split at h
    next => cases h
    next hlong =>
      have hdateLength : (v.take 19).length = 19 := by
        rw [List.length_take]
        omega
      split at h
      next => cases h
      next hhas =>
        have hdate : IsDate (v.take 19) := by
          rw [← hasDate_iff hdateLength (v.drop 19), List.take_append_drop]
          simpa using hhas
        have hwhole : v = v.take 19 ++ v.drop 19 := (List.take_append_drop 19 v).symm
        unfold behindFraction at h
        by_cases hdot : v[19]? = some DOT
        · rcases List.getElem?_eq_some_iff.mp hdot with ⟨hlt, hbyte⟩
          have hdrop : v.drop 19 = DOT :: v.drop 20 := by
            rw [List.drop_eq_getElem_cons hlt, hbyte]
          have hrun := List.takeWhile_append_dropWhile (p := isDigit 10) (l := v.drop 20)
          have hsplit : v = v.take 19 ++ DOT :: (v.drop 20).takeWhile (isDigit 10) ++
              (v.drop 20).dropWhile (isDigit 10) := by
            rw [List.append_assoc, List.cons_append, hrun, ← hdrop]
            exact hwhole
          rw [if_pos ⟨hlt, hdot⟩] at h
          by_cases hends : v.length ≤ 20
          · rw [if_pos hends] at h
            cases h
          · rw [if_neg hends] at h
            refine ⟨_, _, _, hdate, .inr ⟨_, fun c hc => List.mem_takeWhile_imp hc, rfl⟩, ?_, hsplit⟩
            rw [← hasZone_iff, ← hsplit, List.length_append, List.length_cons, hdateLength]
            have hpos : 19 + ((v.drop 20).takeWhile (isDigit 10)).length.succ =
                20 + ((v.drop 20).takeWhile (isDigit 10)).length := by
              omega
            rw [hpos]
            exact h
        · rw [if_neg fun hboth => hdot hboth.2] at h
          refine ⟨v.take 19, [], v.drop 19, hdate, .inl rfl, ?_, by simp⟩
          rw [← hasZone_iff (v.take 19), hdateLength, ← hwhole]
          exact h
  · rintro ⟨date, fraction, zone, hdate, hfraction, hzone, rfl⟩
    rcases hzone.head with ⟨c, rest, hcons, -, -⟩
    have hlength := hdate.length
    have hhas : hasDate (date ++ fraction ++ zone) = true := by
      rw [List.append_assoc, hasDate_iff hlength]
      exact hdate
    have hlong : ¬ (date ++ fraction ++ zone).length < 20 := by
      rw [hcons]
      simp only [List.length_append, List.length_cons, hlength]
      omega
    rw [isValidDatetime, if_neg hlong, hhas, behindFraction_eq hlength hfraction hzone]
    simpa using (hasZone_iff (date ++ fraction) zone).mpr hzone

theorem IsDateTime.accepted {v : List Byte} (h : IsDateTime v) : isValidDatetime v = true := by
  rcases h with ⟨date, fraction, zone, hdate, hfraction, hzone, hsplit⟩
  refine (isValidDatetime_iff v).mpr ⟨date, fraction, zone, hdate, ?_, hzone, hsplit⟩
  rcases hfraction with hnone | ⟨digits, -, hdigits, heq⟩
  · exact .inl hnone
  · exact .inr ⟨digits, hdigits, heq⟩

/-- Date-times are what is accepted, unless the text has a dot that no digit follows. -/
theorem isValidDatetime_exact_iff (v : List Byte) :
    (isValidDatetime v = true ↔ IsDateTime v) ↔
      ¬ ∃ date zone, IsDate date ∧ IsZone zone ∧ v = date ++ DOT :: zone := by
  constructor
  · rintro hexact ⟨date, zone, hdate, hzone, hsplit⟩
    have haccepted : isValidDatetime v = true := by
      rw [isValidDatetime_iff]
      exact ⟨date, [DOT], zone, hdate, .inr ⟨[], by simp, rfl⟩, hzone, by simp [hsplit]⟩
    rcases hexact.mp haccepted with ⟨date', fraction, zone', hdate', hfraction, hzone', hsplit'⟩
    rw [hsplit, List.append_assoc] at hsplit'
    have hlength : date.length = date'.length := by
      rw [hdate.length, hdate'.length]
    rcases List.append_inj hsplit' hlength with ⟨-, hbehind⟩
    rcases hzone.head with ⟨c, rest, rfl, -, hdigit⟩
    rcases hfraction with rfl | ⟨digits, hne, hdigits, rfl⟩
    · rcases hzone'.head with ⟨c', rest', rfl, hdot, -⟩
      exact hdot (List.cons.inj hbehind).1.symm
    · cases digits with
      | nil => exact hne rfl
      | cons d digits =>
          have hfirst : c = d := (List.cons.inj (List.cons.inj hbehind).2).1
          have hd := hdigits d List.mem_cons_self
          rw [← hfirst, hdigit] at hd
          cases hd
  · intro hnone
    constructor
    · intro haccepted
      rcases (isValidDatetime_iff v).mp haccepted with
        ⟨date, fraction, zone, hdate, hfraction, hzone, hsplit⟩
      refine ⟨date, fraction, zone, hdate, ?_, hzone, hsplit⟩
      rcases hfraction with hempty | ⟨digits, hdigits, heq⟩
      · exact .inl hempty
      · refine .inr ⟨digits, ?_, hdigits, heq⟩
        rintro rfl
        exact hnone ⟨date, zone, hdate, hzone, by rw [hsplit, heq]; simp⟩
    · exact IsDateTime.accepted

/-- A dot without digits is accepted. -/
theorem bareDot_accepted :
    isValidDatetime (bytesOf "2024-01-01T00:00:00.Z") = true ∧
      ¬ IsDateTime (bytesOf "2024-01-01T00:00:00.Z") := by
  refine ⟨by decide +kernel, ?_⟩
  rintro ⟨date, fraction, zone, hdate, hfraction, hzone, hsplit⟩
  rw [List.append_assoc] at hsplit
  have hbehind : bytesOf ".Z" = fraction ++ zone := by
    have hdrop := congrArg (List.drop 19) hsplit
    rw [List.drop_append_of_le_length (by rw [hdate.length]), ← hdate.length, List.drop_length,
      List.nil_append, hdate.length] at hdrop
    rw [← hdrop]
    decide
  have hbytes : bytesOf ".Z" = [DOT, LETTER_Z] := by decide
  rw [hbytes] at hbehind
  rcases hfraction with rfl | ⟨digits, hne, hdigits, rfl⟩
  · rcases hzone.head with ⟨c, rest, rfl, hdot, -⟩
    exact hdot (List.cons.inj hbehind).1.symm
  · cases digits with
    | nil => exact hne rfl
    | cons d digits =>
        have hfirst : LETTER_Z = d := (List.cons.inj (List.cons.inj hbehind).2).1
        have hd := hdigits d List.mem_cons_self
        rw [← hfirst] at hd
        revert hd
        decide

end Validation
end Katana
