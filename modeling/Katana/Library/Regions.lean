import Mathlib

/-!
# Regions of an address space

Half-open ranges of addresses, and chunks of which a front part has been handed
out.  The handed out regions are kept beside the chunks: they lie in the front
parts and do not overlap.  This survives the three things an allocator of this
kind does, which are to move the front of one chunk on, to add a chunk, and to
rewind all of them.
-/

namespace Katana
namespace Library

structure Region where
  start : ℕ
  size : ℕ
deriving Repr, DecidableEq

namespace Region

def stop (r : Region) : ℕ :=
  r.start + r.size

def Apart (r s : Region) : Prop :=
  r.stop ≤ s.start ∨ s.stop ≤ r.start

def Within (r s : Region) : Prop :=
  s.start ≤ r.start ∧ r.stop ≤ s.stop

instance (r s : Region) : Decidable (r.Apart s) :=
  inferInstanceAs (Decidable (_ ∨ _))

instance (r s : Region) : Decidable (r.Within s) :=
  inferInstanceAs (Decidable (_ ∧ _))

theorem Apart.symm {r s : Region} (h : r.Apart s) : s.Apart r :=
  Or.symm h

theorem Within.trans {r s t : Region} (hrs : r.Within s) (hst : s.Within t) : r.Within t :=
  ⟨hst.1.trans hrs.1, hrs.2.trans hst.2⟩

theorem Within.apart {r s r' s' : Region} (hr : r.Within r') (hs : s.Within s')
    (h : r'.Apart s') : r.Apart s := by
  obtain ⟨hstart, hstop⟩ := hr
  obtain ⟨hstart', hstop'⟩ := hs
  unfold Apart at *
  omega

/-- Regions that do not overlap have no more room than what they lie in. -/
theorem sum_size_le {regions : List Region} {whole : Region} (hapart : regions.Pairwise Apart)
    (hwithin : ∀ r ∈ regions, r.Within whole) :
    (regions.map size).sum ≤ whole.size := by
  have hcard : ∀ rs : List Region, rs.Pairwise Apart →
      ∃ cells : Finset ℕ, cells.card = (rs.map size).sum ∧
        ∀ x ∈ cells, ∃ r ∈ rs, x ∈ Finset.Ico r.start r.stop := by
    intro rs hrs
    induction rs with
    | nil => exact ⟨∅, by simp⟩
    | cons r rs ih =>
        obtain ⟨hhead, htail⟩ := List.pairwise_cons.mp hrs
        obtain ⟨cells, hsum, hcells⟩ := ih htail
        have hdisjoint : Disjoint (Finset.Ico r.start r.stop) cells := by
          rw [Finset.disjoint_left]
          intro x hx hx'
          obtain ⟨s, hs, hxs⟩ := hcells x hx'
          rw [Finset.mem_Ico] at hx hxs
          have hrs := hhead s hs
          unfold Apart at hrs
          omega
        refine ⟨Finset.Ico r.start r.stop ∪ cells, ?_, ?_⟩
        · rw [Finset.card_union_of_disjoint hdisjoint, hsum]
          simp [stop]
        · intro x hx
          rcases Finset.mem_union.mp hx with hx | hx
          · exact ⟨r, List.mem_cons_self, hx⟩
          · obtain ⟨s, hs, hxs⟩ := hcells x hx
            exact ⟨s, List.mem_cons_of_mem r hs, hxs⟩
  obtain ⟨cells, hsum, hcells⟩ := hcard regions hapart
  have hsubset : cells ⊆ Finset.Ico whole.start whole.stop := by
    intro x hx
    obtain ⟨r, hr, hxr⟩ := hcells x hx
    obtain ⟨hstart, hstop⟩ := hwithin r hr
    rw [Finset.mem_Ico] at *
    omega
  have hle := Finset.card_le_card hsubset
  rw [hsum, Nat.card_Ico] at hle
  unfold stop at hle
  omega

end Region

/-- A region of which the first `used` cells have been handed out. -/
structure Chunk where
  data : ℕ := 0
  size : ℕ := 0
  used : ℕ := 0
deriving Repr, DecidableEq

def Chunk.region (c : Chunk) : Region :=
  { start := c.data, size := c.size }

def Chunk.front (c : Chunk) : Region :=
  { start := c.data, size := c.used }

/-- The regions `live` were handed out by the first `count` chunks. -/
structure Packed (chunks : ℕ → Chunk) (count : ℕ) (live : List Region) : Prop where
  used_le : ∀ i < count, (chunks i).used ≤ (chunks i).size
  apart : ∀ i < count, ∀ j < count, i ≠ j → (chunks i).region.Apart (chunks j).region
  live_in : ∀ r ∈ live, ∃ i < count, r.Within (chunks i).front
  live_apart : live.Pairwise Region.Apart

namespace Packed

variable {chunks : ℕ → Chunk} {count : ℕ} {live : List Region}

theorem empty (chunks : ℕ → Chunk) : Packed chunks 0 [] := by
  constructor <;> simp

theorem front_within (h : Packed chunks count live) {i : ℕ} (hi : i < count) :
    (chunks i).front.Within (chunks i).region := by
  have hused := h.used_le i hi
  unfold Region.Within Region.stop Chunk.front Chunk.region
  simp only
  omega

theorem live_within (h : Packed chunks count live) {r : Region} (hr : r ∈ live) :
    ∃ i < count, r.Within (chunks i).region := by
  obtain ⟨i, hi, hin⟩ := h.live_in r hr
  exact ⟨i, hi, hin.trans (h.front_within hi)⟩

/-- The front of one chunk is moved on, and a region is handed out between its old
and its new place. -/
theorem carve (h : Packed chunks count live) {i : ℕ} (used : ℕ) (r : Region) (hi : i < count)
    (hstart : (chunks i).data + (chunks i).used ≤ r.start)
    (hstop : r.stop ≤ (chunks i).data + used) (hroom : (chunks i).used ≤ used)
    (hsize : used ≤ (chunks i).size) :
    Packed (Function.update chunks i { chunks i with used := used }) count (live ++ [r]) := by
  have hregion : ∀ j, (Function.update chunks i { chunks i with used := used } j).region =
      (chunks j).region := by
    intro j
    rcases eq_or_ne j i with rfl | hne
    · simp [Chunk.region]
    · simp [hne]
  have hfront : ∀ j, (chunks j).front.Within
      (Function.update chunks i { chunks i with used := used } j).front := by
    intro j
    rcases eq_or_ne j i with rfl | hne
    · simp [Chunk.front, Region.Within, Region.stop, hroom]
    · simp [hne, Region.Within]
  have hin : r.Within (Function.update chunks i { chunks i with used := used } i).front := by
    simp only [Function.update_self, Region.Within, Chunk.front, Region.stop] at *
    omega
  constructor
  · intro j hj
    rcases eq_or_ne j i with rfl | hne
    · simpa using hsize
    · simpa [hne] using h.used_le j hj
  · intro j hj k hk hne
    rw [hregion, hregion]
    exact h.apart j hj k hk hne
  · intro s hs
    rcases List.mem_append.mp hs with hs | hs
    · obtain ⟨j, hj, hsj⟩ := h.live_in s hs
      exact ⟨j, hj, hsj.trans (hfront j)⟩
    · rw [List.mem_singleton.mp hs]
      exact ⟨i, hi, hin⟩
  · rw [List.pairwise_append]
    refine ⟨h.live_apart, by simp, ?_⟩
    intro s hs r' hr'
    rw [List.mem_singleton.mp hr']
    obtain ⟨j, hj, hsj⟩ := h.live_in s hs
    rcases eq_or_ne j i with rfl | hne
    · left
      have hend := hsj.2
      simp only [Chunk.front, Region.stop] at hend ⊢
      omega
    · have hr : r.Within (chunks i).region := by
        simp only [Region.Within, Chunk.region, Region.stop] at *
        omega
      exact (hsj.trans (h.front_within hj)).apart hr (h.apart j hj i hi hne)

/-- A chunk from which nothing was handed out is put behind the others. -/
theorem extend (h : Packed chunks count live) {c : Chunk} (hused : c.used ≤ c.size)
    (hapart : ∀ i < count, c.region.Apart (chunks i).region) :
    Packed (Function.update chunks count c) (count + 1) live := by
  have hold : ∀ i < count, Function.update chunks count c i = chunks i := by
    intro i hi
    exact Function.update_of_ne (by omega) _ _
  constructor
  · intro i hi
    rcases Nat.lt_succ_iff_lt_or_eq.mp hi with hi | rfl
    · rw [hold i hi]
      exact h.used_le i hi
    · simpa using hused
  · intro i hi j hj hne
    rcases Nat.lt_succ_iff_lt_or_eq.mp hi with hi | rfl
    · rw [hold i hi]
      rcases Nat.lt_succ_iff_lt_or_eq.mp hj with hj | rfl
      · rw [hold j hj]
        exact h.apart i hi j hj hne
      · rw [Function.update_self]
        exact (hapart i hi).symm
    · rcases Nat.lt_succ_iff_lt_or_eq.mp hj with hj | rfl
      · rw [hold j hj, Function.update_self]
        exact hapart j hj
      · exact absurd rfl hne
  · intro r hr
    obtain ⟨i, hi, hin⟩ := h.live_in r hr
    refine ⟨i, by omega, ?_⟩
    rw [hold i hi]
    exact hin
  · exact h.live_apart

/-- The chunks in use are all there is to it. -/
theorem congr (h : Packed chunks count live) {chunks' : ℕ → Chunk}
    (heq : ∀ i < count, chunks' i = chunks i) : Packed chunks' count live := by
  constructor
  · intro i hi
    rw [heq i hi]
    exact h.used_le i hi
  · intro i hi j hj hne
    rw [heq i hi, heq j hj]
    exact h.apart i hi j hj hne
  · intro r hr
    obtain ⟨i, hi, hin⟩ := h.live_in r hr
    refine ⟨i, hi, ?_⟩
    rw [heq i hi]
    exact hin
  · exact h.live_apart

theorem rewind (h : Packed chunks count live) {chunks' : ℕ → Chunk}
    (heq : ∀ i < count, (chunks' i).region = (chunks i).region)
    (hused : ∀ i < count, (chunks' i).used = 0) : Packed chunks' count [] := by
  constructor
  · intro i hi
    simp [hused i hi]
  · intro i hi j hj hne
    rw [heq i hi, heq j hj]
    exact h.apart i hi j hj hne
  · simp
  · simp

end Packed

end Library
end Katana
