import Katana.Http.CrlfSearch
import Katana.Http.Fragmentation
import Katana.Http.HeaderLines

/-!
# Incremental scanning of the header section

While a header section arrives, `parse_available` resumes the search for its end
three bytes in front of where it stopped, and the byte check one byte.  The search
is given here as the source runs it, on `memchr`; a read outside the buffer makes
it fail.  However the bytes are cut, the cursors say what a scan of all of them
would say.
-/

namespace Katana
namespace Http

open Library

/-! ## The search from scratch -/

/-- CRLFCRLF. -/
def TerminatorAt (bytes : List Byte) (i : ℕ) : Prop :=
  CRLF ++ CRLF <+: bytes.drop i

/-- What the search returns for the place it found. -/
def terminatorEnd : Option ℕ → ℕ
  | some i => i + 4
  | none => 0

/-- The loop of `find_header_terminator` on the first `buffer_size` bytes. -/
def terminatorLoop (buffer : List Byte) (scan : ℕ) : Option ℕ :=
  if scan < buffer.length - 3 then
    match findByte CR (slice buffer scan (buffer.length - 3 - scan)) with
    | none => some 0
    | some hit =>
        match load buffer (scan + hit + 1) 3 with
        | none => none
        | some following =>
            if following = [LF, CR, LF] then some (scan + hit + 4)
            else terminatorLoop buffer (scan + hit + 1)
  else some 0
termination_by buffer.length - scan

def scanTerminator (buffer : List Byte) (scanStart : ℕ) : Option ℕ :=
  if buffer.length < 4 || buffer.length ≤ scanStart + 3 then some 0
  else terminatorLoop buffer scanStart

section Terminator

variable {buffer : List Byte} {i scan : ℕ}

theorem terminatorAt_iff :
    TerminatorAt buffer i ↔
      buffer[i]? = some CR ∧ load buffer (i + 1) 3 = some [LF, CR, LF] := by
  unfold TerminatorAt
  constructor
  · rintro ⟨rest, hrest⟩
    have hlength : i + 4 ≤ buffer.length := by
      have hsum := congrArg List.length hrest
      simp only [CRLF, List.length_append, List.length_cons, List.length_nil,
        List.length_drop] at hsum
      omega
    refine ⟨?_, ?_⟩
    · rw [← Nat.add_zero i, ← List.getElem?_drop, ← hrest]
      rfl
    · rw [load_eq (by omega), slice, ← List.drop_drop, ← hrest]
      rfl
  · rintro ⟨hcr, hload⟩
    rw [load, Option.ite_none_right_eq_some, Option.some.injEq] at hload
    obtain ⟨hbound, hslice⟩ := hload
    obtain ⟨hi, hcr⟩ := List.getElem?_eq_some_iff.mp hcr
    refine ⟨buffer.drop (i + 4), ?_⟩
    have hrest : buffer.drop (i + 1) = [LF, CR, LF] ++ buffer.drop (i + 4) := by
      rw [← hslice, slice, ← List.take_append_drop 3 (buffer.drop (i + 1)), List.drop_drop]
      simp
    rw [List.drop_eq_getElem_cons hi, hcr, hrest]
    rfl

theorem TerminatorAt.inside (h : TerminatorAt buffer i) : i < buffer.length - 3 := by
  have hload := (terminatorAt_iff.mp h).2
  rw [load, Option.ite_none_right_eq_some] at hload
  have hbound := hload.1
  omega

/-- The search of the model of the parser. -/
theorem firstIn_findHeaderTerminator (buffer : List Byte) (scanStart : ℕ) :
    ∃ result, FirstIn (TerminatorAt buffer) scanStart buffer.length result ∧
      findHeaderTerminator buffer scanStart = terminatorEnd result := by
  unfold findHeaderTerminator
  cases hfind : firstIndex (CRLF ++ CRLF) (buffer.drop scanStart) with
  | none =>
    refine ⟨none, fun p hlow _ hp => ?_, rfl⟩
    refine (firstIndex_eq_none_iff (by decide)).mp hfind (p - scanStart) ?_
    rw [List.drop_drop, Nat.add_sub_cancel' hlow]
    exact hp
  | some pos =>
    obtain ⟨-, hat, hbefore⟩ := (firstIndex_eq_some_iff).mp hfind
    rw [List.drop_drop] at hat
    have hinside := TerminatorAt.inside hat
    refine ⟨some (scanStart + pos), ⟨Nat.le_add_right _ _, by omega, hat, ?_⟩, rfl⟩
    intro p hlow hhigh hp
    refine hbefore (p - scanStart) (by omega) ?_
    rw [List.drop_drop, Nat.add_sub_cancel' hlow]
    exact hp

/-- The loop reads inside the buffer and finds the first terminator from `scan` on. -/
theorem terminatorLoop_spec (buffer : List Byte) (scan : ℕ) :
    ∃ result, FirstIn (TerminatorAt buffer) scan buffer.length result ∧
      terminatorLoop buffer scan = some (terminatorEnd result) := by
  induction hleft : buffer.length - scan using Nat.strong_induction_on generalizing scan with
  | _ left ih =>
    rw [terminatorLoop]
    by_cases hscan : scan < buffer.length - 3
    · rw [if_pos hscan]
      have hcell {p : ℕ} (hlow : scan ≤ p) (hhigh : p < buffer.length - 3) :
          (slice buffer scan (buffer.length - 3 - scan))[p - scan]? = buffer[p]? := by
        rw [getElem?_slice (by omega), Nat.add_sub_cancel' hlow]
      cases hfind : findByte CR (slice buffer scan (buffer.length - 3 - scan)) with
      | none =>
        refine ⟨none, fun p hlow _ hp => ?_, rfl⟩
        have hcr := hcell hlow hp.inside
        rw [(terminatorAt_iff.mp hp).1] at hcr
        exact findByte_eq_none.mp hfind (List.mem_of_getElem? hcr)
      | some hit =>
        obtain ⟨hinside, hat, hbefore⟩ := List.findIdx?_eq_some_iff_getElem.mp hfind
        have hbound := hinside
        rw [slice, List.length_take, List.length_drop] at hbound
        rw [decide_eq_true_eq] at hat
        have hcandidate : buffer[scan + hit]? = some CR := by
          rw [← hcell (Nat.le_add_right scan hit) (by omega), Nat.add_sub_cancel_left, ← hat]
          exact List.getElem?_eq_getElem _
        have hearlier : ∀ p, scan ≤ p → p < scan + hit → ¬TerminatorAt buffer p := by
          intro p hlow hhigh hp
          have hcr := hcell hlow hp.inside
          rw [(terminatorAt_iff.mp hp).1] at hcr
          obtain ⟨_, hcr'⟩ := List.getElem?_eq_some_iff.mp hcr
          exact hbefore (p - scan) (by omega) (decide_eq_true hcr')
        have hload : load buffer (scan + hit + 1) 3 = some (slice buffer (scan + hit + 1) 3) :=
          load_eq (by omega)
        dsimp only
        rw [hload]
        dsimp only
        by_cases hfollowing : slice buffer (scan + hit + 1) 3 = [LF, CR, LF]
        · rw [if_pos hfollowing]
          refine ⟨some (scan + hit), ⟨Nat.le_add_right _ _, by omega, ?_, hearlier⟩, rfl⟩
          exact terminatorAt_iff.mpr ⟨hcandidate, hfollowing ▸ hload⟩
        · rw [if_neg hfollowing]
          have hhere : ¬TerminatorAt buffer (scan + hit) := by
            intro hp
            rw [terminatorAt_iff, hload, Option.some.injEq] at hp
            exact hfollowing hp.2
          obtain ⟨result, hresult, hloop⟩ := ih _ (by omega) (scan + hit + 1) rfl
          have hnone : FirstIn (TerminatorAt buffer) scan (scan + hit + 1) none := by
            intro p hlow hhigh
            rcases Nat.lt_succ_iff_lt_or_eq.mp hhigh with hlt | rfl
            · exact hearlier p hlow hlt
            · exact hhere
          exact ⟨result, FirstIn.behind hresult hnone (by omega), hloop⟩
    · rw [if_neg hscan]
      refine ⟨none, fun p hlow _ hp => ?_, rfl⟩
      have hinside := hp.inside
      omega

theorem scanTerminator_eq (buffer : List Byte) (scanStart : ℕ) :
    scanTerminator buffer scanStart = some (findHeaderTerminator buffer scanStart) := by
  obtain ⟨result, hresult, hmodel⟩ := firstIn_findHeaderTerminator buffer scanStart
  obtain ⟨found, hfound, hloop⟩ := terminatorLoop_spec buffer scanStart
  rw [hmodel, hresult.unique hfound, scanTerminator]
  split
  next hshort =>
    rw [Bool.or_eq_true, decide_eq_true_eq, decide_eq_true_eq] at hshort
    rw [← hloop, terminatorLoop, if_neg (by omega)]
  · exact hloop

end Terminator

/-- A byte that the check of the header section accepts. -/
def CleanAt (bytes : List Byte) (i : ℕ) : Prop :=
  ∃ byte, bytes[i]? = some byte ∧ byte ≠ 0 ∧ byte < 0x80 ∧
    (byte = LF → 0 < i ∧ bytes[i - 1]? = some CR)

theorem cleanAt_of_valid {previous : Option Byte} {bytes : List Byte}
    (h : hasInvalidByte previous bytes = false) {i : ℕ} (hi : i < bytes.length) :
    ∃ byte, bytes[i]? = some byte ∧ byte ≠ 0 ∧ byte < 0x80 ∧
      (byte = LF → (if i = 0 then previous else bytes[i - 1]?) = some CR) := by
  induction bytes generalizing previous i with
  | nil => exact absurd hi (Nat.not_lt_zero i)
  | cons c rest ih =>
    simp only [hasInvalidByte, Bool.or_eq_false_iff, decide_eq_false_iff_not,
      Bool.and_eq_false_imp, decide_eq_true_eq, not_not, ne_eq] at h
    obtain ⟨⟨⟨hzero, hhigh⟩, hlf⟩, hrest⟩ := h
    cases i with
    | zero => exact ⟨c, rfl, hzero, UInt8.not_le.mp hhigh, hlf⟩
    | succ i =>
      obtain ⟨byte, hat, hbyte, hlow, hprevious⟩ := ih hrest (Nat.lt_of_succ_lt_succ hi)
      refine ⟨byte, hat, hbyte, hlow, fun hlf => ?_⟩
      rw [if_neg (Nat.succ_ne_zero i), Nat.add_sub_cancel]
      cases i with
      | zero => exact hprevious hlf
      | succ i => exact hprevious hlf

/-! ## The cursors between calls -/

namespace Parser

/-- The cursors say what a scan of the buffered bytes from the start would say. -/
structure Scanned (p : Parser) : Prop where
  headerEnd : (p.headerEndPos = 0 ∧ ∀ i, ¬TerminatorAt p.bytes i) ∨
    ∃ i, p.headerEndPos = i + 4 ∧ TerminatorAt p.bytes i ∧ ∀ j < i, ¬TerminatorAt p.bytes j
  fromScratch : scanTerminator p.bytes 0 = some p.headerEndPos
  clean : ∀ i < p.bufferSize, (p.headerEndPos ≠ 0 → i < p.headerEndPos) → CleanAt p.bytes i

/-- What both scans rely on when they resume. -/
structure Resumable (p : Parser) : Prop where
  safe : p.Safe
  found : p.headerEndPos ≠ 0 → findHeaderTerminator p.bytes 0 = p.headerEndPos
  absent : p.headerEndPos = 0 → findHeaderTerminator (p.bytes.take p.crlfScanPos) 0 = 0
  validated : hasInvalidByte none (p.bytes.take p.validatedBytes) = false

/-- Two parsers with the same bytes and the same scan cursors. -/
structure SameScan (p q : Parser) : Prop where
  bytes : q.bytes = p.bytes
  bufferSize : q.bufferSize = p.bufferSize
  headerEndPos : q.headerEndPos = p.headerEndPos
  crlfScanPos : q.crlfScanPos = p.crlfScanPos
  validatedBytes : q.validatedBytes = p.validatedBytes

variable {p q : Parser}

theorem SameScan.refl (p : Parser) : p.SameScan p :=
  ⟨rfl, rfl, rfl, rfl, rfl⟩

theorem SameScan.trans {r : Parser} (hpq : p.SameScan q) (hqr : q.SameScan r) : p.SameScan r :=
  ⟨hqr.bytes.trans hpq.bytes, hqr.bufferSize.trans hpq.bufferSize,
    hqr.headerEndPos.trans hpq.headerEndPos, hqr.crlfScanPos.trans hpq.crlfScanPos,
    hqr.validatedBytes.trans hpq.validatedBytes⟩

theorem SameInput.sameScan (h : p.SameInput q) : p.SameScan q :=
  ⟨h.bytes, h.bufferSize, h.headerEndPos, h.crlfScanPos, h.validatedBytes⟩

theorem Relocated.sameScan (h : p.Relocated q) : p.SameScan q := by
  refine ⟨h.bytes, ?_, ?_, ?_, ?_⟩
  all_goals rw [h.same]

theorem Resumable.of_same (h : p.Resumable) (hsame : p.SameScan q) (hsafe : q.Safe) :
    q.Resumable := by
  constructor
  · exact hsafe
  · rw [hsame.bytes, hsame.headerEndPos]
    exact h.found
  · rw [hsame.bytes, hsame.headerEndPos, hsame.crlfScanPos]
    exact h.absent
  · rw [hsame.bytes, hsame.validatedBytes]
    exact h.validated

theorem Scanned.of_same (h : p.Scanned) (hsame : p.SameScan q) : q.Scanned := by
  constructor
  · rw [hsame.bytes, hsame.headerEndPos]
    exact h.headerEnd
  · rw [hsame.bytes, hsame.headerEndPos]
    exact h.fromScratch
  · rw [hsame.bytes, hsame.headerEndPos, hsame.bufferSize]
    exact h.clean

theorem Fresh.resumable {input : List Byte} (h : Fresh input p) : p.Resumable := by
  constructor
  · exact h.safe
  · rw [h.same]
    exact fun hend => absurd rfl hend
  · rw [h.same]
    exact fun _ => rfl
  · rw [h.same]
    rfl

/-- New bytes behind those already scanned. -/
theorem Resumable.writeInput (h : p.Resumable) {data : List Byte}
    (hroom : data.length ≤ p.bufferCapacity - p.bufferSize) : (p.writeInput data).Resumable := by
  have hbytes := writeInput_bytes data h.safe.written
  have hlength := bytes_length h.safe.written
  constructor
  · exact writeInput_safe h.safe hroom
  · intro hend
    rw [hbytes, findHeaderTerminator_append]
    · exact h.found hend
    · rw [h.found hend]
      exact hend
  · intro hend
    have hscan := h.safe.crlfScanPos
    show findHeaderTerminator ((p.writeInput data).bytes.take p.crlfScanPos) 0 = 0
    rw [hbytes, List.take_append_of_le_length (by omega)]
    exact h.absent hend
  · have hvalidated := h.safe.validatedBytes
    show hasInvalidByte none ((p.writeInput data).bytes.take p.validatedBytes) = false
    rw [hbytes, List.take_append_of_le_length (by omega)]
    exact h.validated

/-- The resumed search finds what a search from the start finds. -/
theorem Resumable.scanHeaderEnd (h : p.Resumable) :
    p.scanHeaderEnd.Resumable ∧ p.scanHeaderEnd.bytes = p.bytes ∧
      p.scanHeaderEnd.headerEndPos = findHeaderTerminator p.bytes 0 := by
  have hsafe := scanHeaderEnd_safe h.safe
  have hlength := bytes_length h.safe.written
  have hscan := h.safe.crlfScanPos
  unfold Parser.scanHeaderEnd at hsafe ⊢
  by_cases hend : p.headerEndPos = 0
  · rw [if_pos hend] at hsafe ⊢
    have hfind : findHeaderTerminator p.bytes
        (if p.crlfScanPos > 3 then p.crlfScanPos - 3 else 0) = findHeaderTerminator p.bytes 0 := by
      have hresume := findHeaderTerminator_resume (h.absent hend) (p.bytes.drop p.crlfScanPos)
      rwa [List.take_append_drop, List.length_take, hlength, Nat.min_eq_left hscan] at hresume
    dsimp only at hsafe ⊢
    refine ⟨⟨hsafe, fun _ => hfind.symm, fun hnone => ?_, h.validated⟩, rfl, hfind⟩
    dsimp only at hnone ⊢
    show findHeaderTerminator (p.bytes.take p.bufferSize) 0 = 0
    rw [← hlength, List.take_length, ← hfind]
    exact hnone
  · rw [if_neg hend] at hsafe ⊢
    exact ⟨h, rfl, (h.found hend).symm⟩

/-- A scan of all the bytes, in front of the loop. -/
theorem Scanned.of_whole (hsafe : p.Safe) (hend : p.headerEndPos = findHeaderTerminator p.bytes 0)
    (hvalid : hasInvalidByte none (p.bytes.take p.validationLimit) = false) : p.Scanned := by
  constructor
  · obtain ⟨result, hresult, hfind⟩ := firstIn_findHeaderTerminator p.bytes 0
    rw [hend, hfind]
    cases result with
    | none =>
      refine .inl ⟨rfl, fun i hi => hresult i (Nat.zero_le i) ?_ hi⟩
      exact hi.inside.trans_le (Nat.sub_le _ _)
    | some i =>
      exact .inr ⟨i, rfl, hresult.2.2.1, fun j hj => hresult.2.2.2 j (Nat.zero_le j) hj⟩
  · rw [hend]
    exact scanTerminator_eq p.bytes 0
  · intro i hi hbefore
    have hlimit : i < p.validationLimit := by
      unfold validationLimit
      split
      next hne => exact hbefore hne
      next => exact hi
    have hlength := bytes_length hsafe.written
    obtain ⟨byte, hat, hzero, hlow, hlf⟩ := cleanAt_of_valid (i := i) hvalid
      (by
        rw [List.length_take]
        omega)
    rw [List.getElem?_take_of_lt hlimit] at hat
    refine ⟨byte, hat, hzero, hlow, fun heq => ?_⟩
    have hprevious := hlf heq
    by_cases hfirst : i = 0
    · rw [if_pos hfirst] at hprevious
      cases hprevious
    · rw [if_neg hfirst, List.getElem?_take_of_lt (by omega)] at hprevious
      exact ⟨Nat.pos_of_ne_zero hfirst, hprevious⟩

/-- The checks leave cursors from which the scans can resume, and when they pass, the
scans are complete. -/
theorem Resumable.checkInput (h : p.Resumable) (hsection : p.inHeaderSection = true) :
    p.checkInput.1.Resumable ∧ (p.checkInput.2 = .ok () → p.checkInput.1.Scanned) := by
  have hsafe := checkInput_safe h.safe
  obtain ⟨hscan, hbytes, hend⟩ := h.scanHeaderEnd
  rw [checkInput_header hsection] at hsafe ⊢
  generalize p.scanHeaderEnd = q at hsafe hscan hbytes hend ⊢
  have hlimit : q.validationLimit ≤ q.bufferSize := by
    unfold validationLimit
    split
    · exact hscan.safe.headerEndPos
    · exact le_rfl
  have hlength := bytes_length hscan.safe.written
  have hinvalid := headerInvalid_eq hscan.safe hlimit hscan.validated (List.prefix_refl q.bytes)
    (hlength.symm ▸ hscan.safe.validatedBytes)
  cases hbad : q.headerInvalid with
  | true => exact ⟨hscan, nofun⟩
  | false =>
    rw [hbad] at hsafe hinvalid
    have hmarked : q.markValidated.Safe → q.markValidated.Resumable := fun hmarked =>
      ⟨hmarked, hscan.found, hscan.absent, hinvalid.symm⟩
    cases hlong : q.exceedsSizeLimit with
    | true =>
      rw [hlong] at hsafe
      exact ⟨hmarked hsafe, nofun⟩
    | false =>
      rw [hlong] at hsafe
      refine ⟨hmarked hsafe, fun _ => .of_whole hsafe ?_ hinvalid.symm⟩
      show q.headerEndPos = findHeaderTerminator q.bytes 0
      rw [hbytes, hend]

/-! ## The loop -/

theorem nextState_sameScan {r : Parsed ParserState} (hnext : p.nextState = r) :
    p.SameScan r.1 := by
  have hadvances := nextState_advances p
  rw [hnext] at hadvances
  exact hadvances.input.sameScan

theorem passes_sameScan (hpasses : Passes parsePass p q) : p.SameScan q := by
  have hpass : ∀ s next : Parser, p.SameScan s → s.parsePass = .again next →
      p.SameScan next := by
    intro s next hsame hpass
    obtain ⟨-, r, state, hnext, rfl, -⟩ := (parsePass_again_iff).mp hpass
    have hstep := nextState_sameScan hnext
    exact hsame.trans ⟨hstep.bytes, hstep.bufferSize, hstep.headerEndPos, hstep.crlfScanPos,
      hstep.validatedBytes⟩
  exact hpasses.invariant hpass (.refl p)

/-- The loop waits only where it drops no bytes. -/
def LoopKeeps (p : Parser) : Prop :=
  ∀ q, Passes parsePass p q → q.Waits → q.stallDrops = false

theorem parseLoop_sameScan (hkeeps : p.LoopKeeps) : p.SameScan p.parseLoop.1 := by
  obtain ⟨last, hpasses, hdone⟩ := parseLoop_endsWith p
  have hsame := passes_sameScan hpasses
  rcases parsePass_done_cases hdone with
    ⟨-, heq⟩ | ⟨-, q, e, hnext, heq⟩ | ⟨hstate, q, state, hnext, hpos, hne, heq⟩
  · rw [heq]
    exact hsame
  · rw [heq]
    exact hsame.trans (nextState_sameScan hnext)
  · obtain ⟨rfl, rfl⟩ := nextState_still hnext hpos hne
    rw [heq, show ({ q with state := q.state } : Parser) = q from rfl,
      stall_eq (hkeeps q hpasses ⟨hstate, hnext⟩)]
    exact hsame

/-- No bytes are dropped while what is in the buffer is parsed. -/
def AvailableKeeps (p : Parser) : Prop :=
  ∀ q, p.checkInput = (q, .ok ()) → q.LoopKeeps

theorem Resumable.parseAvailable (h : p.Resumable) (hsection : p.inHeaderSection = true)
    (hkeeps : p.AvailableKeeps) :
    p.parseAvailable.1.Resumable ∧
      ∀ state, p.parseAvailable.2 = .ok state → p.parseAvailable.1.Scanned := by
  have hsafe := parseAvailable_safe h.safe
  obtain ⟨hresumable, hscanned⟩ := h.checkInput hsection
  unfold Parser.parseAvailable at hsafe ⊢
  rcases hcheck : p.checkInput with ⟨q, e | _⟩
  · rw [hcheck] at hresumable
    exact ⟨hresumable, nofun⟩
  · rw [hcheck] at hsafe hresumable hscanned
    have hsame := parseLoop_sameScan (hkeeps q hcheck)
    exact ⟨hresumable.of_same hsame hsafe, fun _ _ => (hscanned rfl).of_same hsame⟩

/-! ## Calls -/

def CommitKeeps (data : List Byte) (p : Parser) : Prop :=
  data.length ≤ p.bufferCapacity - p.bufferSize → (p.writeInput data).AvailableKeeps

/-- The call drops no bytes and does not begin another message. -/
def KeepsMessage (p : Parser) : Call → Prop
  | .parse data =>
      if data = [] then p.AvailableKeeps
      else
        p.spanDrops data.length = false ∧
          ∀ q span, p.writableInputSpan data.length = (q, .ok span) → q.CommitKeeps data
  | .writableInputSpan desiredSize => p.spanDrops desiredSize = false
  | .commitInput data => p.CommitKeeps data
  | .parseAvailable => p.AvailableKeeps
  | .prepareForNextRequest => False
  | .reset => False

/-- Calls that find the parser in the header section. -/
def HeadCalls : Parser → List Call → Prop
  | _, [] => True
  | p, c :: calls => p.inHeaderSection = true ∧ p.KeepsMessage c ∧ HeadCalls (p.call c) calls

/-- What the call reports, if it parses. -/
def reports (p : Parser) : Call → Option (Except ErrorCode ParserState)
  | .parse data => some (p.parse data).2
  | .commitInput data => some (p.commitInput data).2
  | .parseAvailable => some p.parseAvailable.2
  | _ => none

theorem Resumable.commitInput (h : p.Resumable) {data : List Byte}
    (hsection : p.inHeaderSection = true) (hkeeps : p.CommitKeeps data) :
    (p.commitInput data).1.Resumable ∧
      ∀ state, (p.commitInput data).2 = .ok state → (p.commitInput data).1.Scanned := by
  unfold Parser.commitInput
  split
  · exact ⟨h, nofun⟩
  split
  · exact ⟨h, nofun⟩
  next hroom =>
    have hfits := Nat.le_of_not_lt hroom
    exact (h.writeInput hfits).parseAvailable hsection (hkeeps hfits)

theorem Resumable.writableInputSpan (h : p.Resumable) {desiredSize : ℕ}
    (hkeep : p.spanDrops desiredSize = false) :
    (p.writableInputSpan desiredSize).1.Resumable ∧
      (p.writableInputSpan desiredSize).1.state = p.state := by
  have hsafe := writableInputSpan_safe desiredSize h.safe
  rcases writableInputSpan_cases desiredSize p with hmoved | ⟨hdrops, -⟩
  · refine ⟨h.of_same hmoved.sameScan hsafe, ?_⟩
    rw [hmoved.same]
  · rw [hkeep] at hdrops
    cases hdrops

theorem Resumable.parse (h : p.Resumable) {data : List Byte}
    (hsection : p.inHeaderSection = true) (hkeeps : p.KeepsMessage (.parse data)) :
    (p.parse data).1.Resumable ∧
      ∀ state, (p.parse data).2 = .ok state → (p.parse data).1.Scanned := by
  dsimp only [KeepsMessage] at hkeeps
  unfold Parser.parse
  by_cases hempty : data = []
  · rw [if_pos hempty] at hkeeps ⊢
    exact h.parseAvailable hsection hkeeps
  · rw [if_neg hempty] at hkeeps ⊢
    obtain ⟨hspan, hstate⟩ := h.writableInputSpan hkeeps.1
    rcases hgrant : p.writableInputSpan data.length with ⟨q, e | span⟩
    · rw [hgrant] at hspan
      exact ⟨hspan, nofun⟩
    · rw [hgrant] at hspan hstate
      refine hspan.commitInput ?_ (hkeeps.2 q span hgrant)
      rw [inHeaderSection, hstate]
      exact hsection

theorem Resumable.call (h : p.Resumable) {c : Call} (hsection : p.inHeaderSection = true)
    (hkeeps : p.KeepsMessage c) :
    (p.call c).Resumable ∧ ∀ state, p.reports c = some (.ok state) → (p.call c).Scanned := by
  cases c with
  | parse data =>
    have hparse := h.parse hsection hkeeps
    exact ⟨hparse.1, fun state hok => hparse.2 state (Option.some.inj hok)⟩
  | writableInputSpan desiredSize => exact ⟨(h.writableInputSpan hkeeps).1, nofun⟩
  | commitInput data =>
    have hcommit := h.commitInput hsection hkeeps
    exact ⟨hcommit.1, fun state hok => hcommit.2 state (Option.some.inj hok)⟩
  | parseAvailable =>
    have havailable := h.parseAvailable hsection hkeeps
    exact ⟨havailable.1, fun state hok => havailable.2 state (Option.some.inj hok)⟩
  | prepareForNextRequest => exact hkeeps.elim
  | reset => exact hkeeps.elim

theorem HeadCalls.resumable {calls more : List Call} (h : p.Resumable)
    (hcalls : p.HeadCalls (calls ++ more)) :
    (calls.foldl call p).Resumable ∧ (calls.foldl call p).HeadCalls more := by
  induction calls generalizing p with
  | nil => exact ⟨h, hcalls⟩
  | cons c calls ih =>
    obtain ⟨hsection, hkeeps, hrest⟩ := hcalls
    exact ih (h.call hsection hkeeps).1 hrest

/-- After any calls, the two that begin another message leave a fresh parser. -/
theorem fresh_nextMessage (calls : List Call) :
    (∃ input, Fresh input (calls.foldl call {}).prepareForNextRequest) ∧
      ∃ input, Fresh input (calls.foldl call {}).reset := by
  have hsafe := calls_safe calls safe_initial
  exact ⟨⟨_, rfl, rfl, prepareForNextRequest_safe hsafe⟩, _, rfl, rfl, reset_safe hsafe⟩

/-- However the bytes of a message arrive, a call that parses without an error leaves
the cursors as a scan of all the bytes would. -/
theorem calls_scanned {input : List Byte} (hfresh : Fresh input p) (calls : List Call) (c : Call)
    (hcalls : p.HeadCalls (calls ++ [c])) (state : ParserState)
    (hok : (calls.foldl call p).reports c = some (.ok state)) :
    ((calls ++ [c]).foldl call p).Scanned := by
  obtain ⟨hresumable, hsection, hkeeps, -⟩ := HeadCalls.resumable hfresh.resumable hcalls
  rw [List.foldl_append]
  exact (hresumable.call hsection hkeeps).2 state hok

theorem availableKeeps_of_short (hsafe : p.Safe) (hshort : p.bufferSize ≤ COMPACT_THRESHOLD) :
    p.AvailableKeeps := by
  intro q hcheck last hpasses _
  have hsize := (checkInput_sizes p).1
  have hq := checkInput_safe hsafe
  rw [hcheck] at hsize hq
  have hlast := passes_safe hq hpasses
  have hpassed := (passes_sizes hpasses).1
  have hpos := hlast.parsePos
  dsimp only at hsize
  have hconsumed : ¬COMPACT_THRESHOLD < last.parsePos := by omega
  have hlarge : ¬MAX_HEADER_SIZE * 2 < last.bufferSize := by
    have hlt : COMPACT_THRESHOLD ≤ MAX_HEADER_SIZE * 2 := by decide
    omega
  simp [stallDrops, hconsumed, hlarge]

/-- A terminator that is cut in the middle. -/
theorem calls_scanned_cut :
    (List.foldl call {}
      ([.commitInput (bytesOf "GET / HTTP/1.1\r\nA: b\r"), .commitInput (bytesOf "\n\r")] ++
        [.commitInput (bytesOf "\n")])).Scanned := by
  have hkeeps {p : Parser} {data : List Byte} (hsafe : p.Safe)
      (hshort : p.bufferSize + data.length ≤ COMPACT_THRESHOLD) : p.CommitKeeps data :=
    fun hroom => availableKeeps_of_short (writeInput_safe hsafe hroom) hshort
  have hsafe := call_safe safe_initial (.commitInput (bytesOf "GET / HTTP/1.1\r\nA: b\r"))
  -- one evaluation, so that the table of fields is sorted once
  have hrun :
      let first := call {} (.commitInput (bytesOf "GET / HTTP/1.1\r\nA: b\r"))
      let second := first.call (.commitInput (bytesOf "\n\r"))
      (first.inHeaderSection = true ∧
        first.bufferSize + (bytesOf "\n\r").length ≤ COMPACT_THRESHOLD) ∧
      (second.inHeaderSection = true ∧
        second.bufferSize + (bytesOf "\n").length ≤ COMPACT_THRESHOLD) ∧
      (List.foldl call {} [.commitInput (bytesOf "GET / HTTP/1.1\r\nA: b\r"),
        .commitInput (bytesOf "\n\r")]).reports (.commitInput (bytesOf "\n")) =
          some (.ok .complete) := by
    decide +kernel
  rcases hrun with ⟨⟨hfirst, hfirstShort⟩, ⟨hsecond, hsecondShort⟩, hlast⟩
  have hcalls : HeadCalls {}
      ([.commitInput (bytesOf "GET / HTTP/1.1\r\nA: b\r"), .commitInput (bytesOf "\n\r")] ++
        [.commitInput (bytesOf "\n")]) := by
    refine ⟨rfl, hkeeps safe_initial (by decide +kernel), hfirst, hkeeps hsafe hfirstShort,
      hsecond, hkeeps (call_safe hsafe _) hsecondShort, trivial⟩
  exact calls_scanned ⟨rfl, rfl, safe_initial⟩
    [.commitInput (bytesOf "GET / HTTP/1.1\r\nA: b\r"), .commitInput (bytesOf "\n\r")]
    (.commitInput (bytesOf "\n")) hcalls .complete hlast

end Parser

end Http
end Katana
