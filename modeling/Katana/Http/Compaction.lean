import Katana.Http.CursorSafety

/-!
# When the buffer is compacted

`compact_buffer` drops the bytes in front of `parse_pos_` and shifts the scan
cursors with them, but not the views of the request.  It runs in two places:
when a span does not fit, and when the loop waits with much in the buffer.  This
file says when it drops bytes there and what it leaves unchanged.
-/

namespace Katana
namespace Http

open Library

namespace Parser

/-- `compact_buffer` would drop bytes in front of `parse_pos_`. -/
def compactionDrops (p : Parser) : Bool :=
  0 < p.parsePos && (p.bufferSize ≤ p.parsePos || COMPACT_THRESHOLD / 2 < p.parsePos)

/-- `writable_input_span` would drop bytes. -/
def spanDrops (desiredSize : ℕ) (p : Parser) : Bool :=
  p.bufferCapacity - p.bufferSize < desiredSize && p.state ≠ .complete && p.compactionDrops

/-- The loop would drop bytes if it waited in this state. -/
def stallDrops (p : Parser) : Bool :=
  (COMPACT_THRESHOLD < p.parsePos || MAX_HEADER_SIZE * 2 < p.bufferSize) && p.compactionDrops

theorem compactBuffer_eq {p : Parser} (hpos : 0 < p.parsePos)
    (hkeep : p.compactionDrops = false) : p.compactBuffer = p := by
  simp only [compactionDrops, hpos, decide_true, Bool.true_and, Bool.or_eq_false_iff,
    decide_eq_false_iff_not] at hkeep
  unfold compactBuffer
  rw [if_neg hkeep.1, if_neg hkeep.2]

theorem stall_eq {p : Parser} (hkeep : p.stallDrops = false) : p.stall = p := by
  unfold stall
  split
  next hlong =>
    have hlong' : (COMPACT_THRESHOLD < p.parsePos || MAX_HEADER_SIZE * 2 < p.bufferSize) = true :=
      hlong
    rw [stallDrops, hlong', Bool.true_and] at hkeep
    by_cases hpos : 0 < p.parsePos
    · exact compactBuffer_eq hpos hkeep
    · -- nothing has been consumed, so the buffer is not empty and stays as it is
      have hzero : p.parsePos = 0 := by omega
      have hsize : 0 < p.bufferSize := by
        simp only [hzero, Bool.or_eq_true, decide_eq_true_eq] at hlong'
        omega
      unfold compactBuffer
      rw [if_neg (by omega), if_neg (by omega)]
  · rfl

/-- The bytes that are not yet parsed survive compaction. -/
theorem compactBuffer_unparsed {p : Parser} (hwritten : p.bufferSize ≤ p.buffer.length) :
    p.compactBuffer.unparsed = p.unparsed := by
  unfold compactBuffer
  split
  next hall =>
    have hnone : p.unparsed = [] := by
      rw [unparsed, List.drop_eq_nil_iff, bytes_length hwritten]
      exact hall
    rw [hnone]
    simp [unparsed, bytes]
  split
  next hsome =>
    simp only [unparsed, bytes, List.drop_zero]
    rw [List.take_append_of_le_length
      (by
        rw [List.length_take, List.length_drop]
        omega), List.take_take, Nat.min_self, List.drop_take]
  · rfl

/-- Compaction does nothing, or moves the unparsed bytes to the front. -/
theorem compactBuffer_cases {p : Parser} (hsafe : p.Safe) :
    p.compactBuffer = p ∨
      (p.compactBuffer.parsePos = 0 ∧ p.compactBuffer.state = p.state ∧
        p.compactBuffer.headerEndPos = p.headerEndPos - p.parsePos) := by
  have hend := hsafe.headerEndPos
  unfold compactBuffer
  split
  · right
    refine ⟨rfl, rfl, ?_⟩
    dsimp only
    omega
  split
  · exact .inr ⟨rfl, rfl, rfl⟩
  · exact .inl rfl

/-- The parser with its bytes in another place. -/
structure Relocated (p q : Parser) : Prop where
  same : q = { p with buffer := q.buffer, bufferCapacity := q.bufferCapacity }
  bytes : q.bytes = p.bytes

theorem Relocated.refl (p : Parser) : p.Relocated p :=
  ⟨rfl, rfl⟩

theorem Relocated.trans {p q r : Parser} (hpq : p.Relocated q) (hqr : q.Relocated r) :
    p.Relocated r := by
  refine ⟨?_, hqr.bytes.trans hpq.bytes⟩
  conv_lhs => rw [hqr.same, hpq.same]

theorem Relocated.unparsed {p q : Parser} (h : p.Relocated q) : q.unparsed = p.unparsed := by
  unfold Parser.unparsed
  rw [h.bytes, h.same]

theorem reserveBuffer_relocated {capacity : ℕ} (p : Parser) :
    p.Relocated (p.reserveBuffer capacity).1 := by
  unfold reserveBuffer
  split
  · exact .refl p
  split
  · exact .refl p
  · refine ⟨rfl, ?_⟩
    show p.bytes.take p.bufferSize = p.bytes
    rw [bytes, List.take_take, Nat.min_self]

theorem ensureBufferCapacity_relocated (required : ℕ) (p : Parser) :
    p.Relocated (p.ensureBufferCapacity required).1 := by
  unfold ensureBufferCapacity
  split
  · exact .refl p
  split
  · exact .refl p
  · exact reserveBuffer_relocated p

theorem inputSpan_relocated {desiredSize : ℕ} (p : Parser) :
    p.Relocated (p.inputSpan desiredSize).1 := by
  have hgrown := ensureBufferCapacity_relocated (p.bufferSize + desiredSize) p
  unfold inputSpan
  split
  · split
    next q heq => rwa [heq] at hgrown
    next q heq => rwa [heq] at hgrown
  · exact .refl p

/-- Asking for a span moves the bytes to another place, possibly after dropping
those already parsed. -/
theorem writableInputSpan_cases (desiredSize : ℕ) (p : Parser) :
    p.Relocated (p.writableInputSpan desiredSize).1 ∨
      (p.spanDrops desiredSize = true ∧
        p.compactBuffer.Relocated (p.writableInputSpan desiredSize).1) := by
  unfold writableInputSpan
  split
  · exact .inl (.refl p)
  split
  · exact .inl (.refl p)
  split
  next hfull =>
    dsimp only
    have hcompact : (if 0 < p.parsePos && p.state ≠ .complete then p.compactBuffer else p) = p ∨
        (p.spanDrops desiredSize = true ∧
          (if 0 < p.parsePos && p.state ≠ .complete then p.compactBuffer else p) =
            p.compactBuffer) := by
      split
      next hcond =>
        simp only [Bool.and_eq_true, decide_eq_true_eq] at hcond
        cases hdrops : p.compactionDrops with
        | false => exact .inl (compactBuffer_eq hcond.1 hdrops)
        | true =>
            have hlt : p.bufferCapacity - p.bufferSize < desiredSize := hfull
            refine .inr ⟨?_, rfl⟩
            simp [spanDrops, hlt, hcond.2, hdrops]
      · exact .inl rfl
    generalize (if 0 < p.parsePos && p.state ≠ .complete then p.compactBuffer
      else p) = q at hcompact
    have hjoin {r : Parser} (hresult : q.Relocated r) : p.Relocated r ∨
        (p.spanDrops desiredSize = true ∧ p.compactBuffer.Relocated r) := by
      rcases hcompact with rfl | ⟨hdrops, rfl⟩
      · exact .inl hresult
      · exact .inr ⟨hdrops, hresult⟩
    have hgrown := ensureBufferCapacity_relocated (q.bufferSize + desiredSize) q
    apply hjoin
    split
    · exact .refl q
    split
    · split
      · exact .refl q
      split
      next q' heq => rwa [heq] at hgrown
      next q' heq =>
        rw [heq] at hgrown
        exact hgrown.trans (inputSpan_relocated q')
    · exact inputSpan_relocated q
  · exact .inl (inputSpan_relocated p)

end Parser

end Http
end Katana
