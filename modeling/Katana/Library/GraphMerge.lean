import Mathlib

/-!
# Merging the nodes of a graph into each other

Every node of a store has a list of children.  A merge of a node first merges its
children, one after the other, then takes the data of each of them over, and at last
clears the node's list.  It ends exactly if no descent along the children is infinite,
and then the data of the node are folded over those of its descendants, in whatever
order they have been merged and however often they are shared.
-/

namespace Katana
namespace Library

/-- What the merge needs to know of a node. -/
structure Merging (ι α : Type*) where
  children : α → List ι
  /-- The second node takes the data of the first one over. -/
  absorb : α → α → α
  clear : α → α
  children_absorb : ∀ child node, children (absorb child node) = children node
  children_clear : ∀ node, children (clear node) = []

namespace Merging

section Store

variable {ι α : Type*} (m : Merging ι α)

abbrev Store (ι α : Type*) := ι → α

def Child (st : Store ι α) (child s : ι) : Prop :=
  child ∈ m.children (st s)

/-- The data of a node behind the merge, by those of its children behind theirs. -/
inductive Folded (st : Store ι α) : ι → α → Prop
  | leaf {s : ι} (h : m.children (st s) = []) : Folded st s (st s)
  | node {s : ι} {values : List α} (hne : m.children (st s) ≠ [])
      (h : List.Forall₂ (Folded st) (m.children (st s)) values) :
      Folded st s (m.clear (values.foldl (fun node child => m.absorb child node) (st s)))

theorem exists_left {R : ι → α → Prop} {ids : List ι} {values : List α}
    (h : List.Forall₂ R ids values) {id : ι} (hid : id ∈ ids) : ∃ a ∈ values, R id a := by
  induction h with
  | nil => cases hid
  | cons hfirst _ ih =>
      rcases List.mem_cons.mp hid with rfl | hrest
      · exact ⟨_, List.mem_cons_self, hfirst⟩
      · rcases ih hrest with ⟨a, ha, hR⟩
        exact ⟨a, List.mem_cons_of_mem _ ha, hR⟩

theorem exists_right {R : ι → α → Prop} {ids : List ι} {values : List α}
    (h : List.Forall₂ R ids values) {a : α} (ha : a ∈ values) : ∃ id ∈ ids, R id a := by
  induction h with
  | nil => cases ha
  | cons hfirst _ ih =>
      rcases List.mem_cons.mp ha with rfl | hrest
      · exact ⟨_, List.mem_cons_self, hfirst⟩
      · rcases ih hrest with ⟨id, hid, hR⟩
        exact ⟨id, List.mem_cons_of_mem _ hid, hR⟩

/-- Every node is as it was or has been merged. -/
structure Settled (start st : Store ι α) : Prop where
  settled : ∀ x, st x = start x ∨ m.children (st x) = [] ∧ m.Folded start x (st x)

variable {m} {start st : Store ι α} {s x : ι}

theorem settled_refl (start : Store ι α) : m.Settled start start :=
  ⟨fun _ => .inl rfl⟩

/-- A node without children is what its data are folded to. -/
theorem Settled.folded (h : m.Settled start st) (hx : m.children (st x) = []) :
    m.Folded start x (st x) := by
  rcases h.settled x with hsame | ⟨-, hfolded⟩
  · rw [hsame] at hx ⊢
    exact .leaf hx
  · exact hfolded

/-- A node with children is as it was. -/
theorem Settled.same (h : m.Settled start st) (hx : m.children (st x) ≠ []) :
    st x = start x := by
  rcases h.settled x with hsame | ⟨hnil, -⟩
  · exact hsame
  · exact absurd hnil hx

/-- No list of children has become another one than the empty one. -/
def Shrunk (m : Merging ι α) (start st : Store ι α) : Prop :=
  ∀ x, m.children (st x) = m.children (start x) ∨ m.children (st x) = []

theorem Settled.shrunk (h : m.Settled start st) : m.Shrunk start st := by
  intro x
  rcases h.settled x with hsame | ⟨hnil, -⟩
  · exact .inl (congrArg m.children hsame)
  · exact .inr hnil

theorem Shrunk.same (hst : m.Shrunk start st) (hne : m.children (st s) ≠ []) :
    m.children (st s) = m.children (start s) :=
  (hst s).resolve_right hne

/-- A fold of calls keeps what every call keeps. -/
theorem foldlM_keeps {call : ι → Store ι α → Option (Store ι α)} {P : Store ι α → Prop}
    {ids : List ι}
    (hstep : ∀ s ∈ ids, ∀ st st', P st → call s st = some st' → P st')
    {st st' : Store ι α} (h : ids.foldlM (fun st s => call s st) st = some st') (hst : P st) :
    P st' := by
  induction ids generalizing st with
  | nil =>
      cases h
      exact hst
  | cons s rest ih =>
      rw [List.foldlM_cons, Option.bind_eq_bind, Option.bind_eq_some_iff] at h
      rcases h with ⟨middle, hfirst, hrest⟩
      exact ih (fun s hs => hstep s (List.mem_cons_of_mem _ hs)) hrest
        (hstep _ List.mem_cons_self _ _ hst hfirst)

/-- What a call establishes and later ones keep holds of all of them at the end. -/
theorem foldlM_establishes {call : ι → Store ι α → Option (Store ι α)}
    {P : Store ι α → Prop} {Q : ι → Store ι α → Prop} {ids : List ι}
    (hstep : ∀ s ∈ ids, ∀ st st', P st → call s st = some st' →
      P st' ∧ Q s st' ∧ ∀ x, Q x st → Q x st')
    {st st' : Store ι α} (h : ids.foldlM (fun st s => call s st) st = some st') (hst : P st) :
    P st' ∧ (∀ s ∈ ids, Q s st') ∧ ∀ x, Q x st → Q x st' := by
  induction ids generalizing st with
  | nil =>
      cases h
      exact ⟨hst, List.forall_mem_nil _, fun _ => id⟩
  | cons s rest ih =>
      rw [List.foldlM_cons, Option.bind_eq_bind, Option.bind_eq_some_iff] at h
      rcases h with ⟨middle, hfirst, hrest⟩
      have hmiddle := hstep s List.mem_cons_self st middle hst hfirst
      have hend := ih (fun s hs => hstep s (List.mem_cons_of_mem _ hs)) hrest hmiddle.1
      refine ⟨hend.1, List.forall_mem_cons.mpr ⟨hend.2.2 s hmiddle.2.1, hend.2.1⟩, ?_⟩
      intro x hx
      exact hend.2.2 x (hmiddle.2.2 x hx)

theorem foldlM_mono {call call' : ι → Store ι α → Option (Store ι α)} {ids : List ι}
    (hcall : ∀ s st st', call s st = some st' → call' s st = some st') {st st' : Store ι α}
    (h : ids.foldlM (fun st s => call s st) st = some st') :
    ids.foldlM (fun st s => call' s st) st = some st' := by
  induction ids generalizing st with
  | nil => exact h
  | cons s rest ih =>
      rw [List.foldlM_cons, Option.bind_eq_bind, Option.bind_eq_some_iff] at h ⊢
      rcases h with ⟨middle, hfirst, hrest⟩
      exact ⟨middle, hcall s st middle hfirst, ih hrest⟩

theorem not_cycle_of_acc {r : ι → ι → Prop} {a : ι} (h : Acc r a) : ¬ Relation.TransGen r a a := by
  have htrans := h.transGen
  clear h
  induction htrans with
  | intro a _ ih =>
      intro hcycle
      exact ih a hcycle hcycle

/-- In a finite graph every descent ends that does not come to a cycle. -/
theorem acc_of_acyclic [Finite ι] {r : ι → ι → Prop} {a : ι}
    (h : ∀ x, Relation.ReflTransGen r x a → ¬ Relation.TransGen r x x) : Acc r a := by
  let below : {x // Relation.ReflTransGen r x a} → {x // Relation.ReflTransGen r x a} → Prop :=
    fun x y => Relation.TransGen r x.1 y.1
  have htrans : IsTrans _ below := ⟨fun _ _ _ hxy hyz => hxy.trans hyz⟩
  have hirrefl : Std.Irrefl below := ⟨fun x => h x.1 x.2⟩
  have hwell : WellFounded below := Finite.wellFounded_of_trans_of_irrefl below
  have hall : ∀ x : {x // Relation.ReflTransGen r x a}, Acc r x.1 := by
    intro x
    induction hwell.apply x with
    | intro x _ ih =>
        apply Acc.intro
        intro y hy
        exact ih ⟨y, .head hy x.2⟩ (.single hy)
  exact hall ⟨a, .refl⟩

end Store

/-! ## Calls -/

variable {ι α : Type*} [DecidableEq ι] (m : Merging ι α)

def absorbChild (s : ι) (st : Store ι α) (child : ι) : Store ι α :=
  Function.update st s (m.absorb (st child) (st s))

def clearNode (s : ι) (st : Store ι α) : Store ι α :=
  Function.update st s (m.clear (st s))

/-- The call, if its recursion is less deep than the number. -/
def merge : ℕ → ι → Store ι α → Option (Store ι α)
  | 0, _, _ => none
  | depth + 1, s, st =>
      if (m.children (st s)).isEmpty then some st
      else
        ((m.children (st s)).foldlM (fun st child => merge depth child st) st).map fun st =>
          m.clearNode s ((m.children (st s)).foldl (m.absorbChild s) st)

/-- The calls for all nodes in a list. -/
def mergeAll (depth : ℕ) (ids : List ι) (st : Store ι α) : Option (Store ι α) :=
  ids.foldlM (fun st s => m.merge depth s st) st

variable {m} {start st st' : Store ι α} {s x : ι}

theorem absorbAll_self (children : List ι) (hself : s ∉ children) (st : Store ι α) :
    children.foldl (m.absorbChild s) st s =
      (children.map st).foldl (fun node child => m.absorb child node) (st s) := by
  induction children generalizing st with
  | nil => rfl
  | cons child rest ih =>
      have hrest : s ∉ rest := fun h => hself (List.mem_cons_of_mem child h)
      have hvalues : rest.map (m.absorbChild s st child) = rest.map st := by
        apply List.map_congr_left
        intro other hother
        have hne : other ≠ s := fun heq => hrest (heq ▸ hother)
        simp [absorbChild, hne]
      rw [List.foldl_cons, ih hrest, hvalues]
      simp [absorbChild]

theorem absorbAll_other (children : List ι) (hx : x ≠ s) (st : Store ι α) :
    children.foldl (m.absorbChild s) st x = st x := by
  induction children generalizing st with
  | nil => rfl
  | cons child rest ih =>
      rw [List.foldl_cons, ih]
      simp [absorbChild, hx]

theorem absorbAll_children (children : List ι) (st : Store ι α) (x : ι) :
    m.children (children.foldl (m.absorbChild s) st x) = m.children (st x) := by
  induction children generalizing st with
  | nil => rfl
  | cons child rest ih =>
      rw [List.foldl_cons, ih]
      unfold absorbChild
      by_cases hx : x = s
      · rw [hx, Function.update_self, m.children_absorb]
      · rw [Function.update_of_ne hx]

/-- Behind the children: what the rest of a call does. -/
theorem clearNode_other (hx : x ≠ s) (children : List ι) (st : Store ι α) :
    m.clearNode s (children.foldl (m.absorbChild s) st) x = st x := by
  rw [clearNode, Function.update_of_ne hx, absorbAll_other children hx]

theorem clearNode_children (children : List ι) (st : Store ι α) (x : ι) :
    m.children (m.clearNode s (children.foldl (m.absorbChild s) st) x) =
      if x = s then [] else m.children (st x) := by
  unfold clearNode
  by_cases hx : x = s
  · rw [if_pos hx, hx, Function.update_self, m.children_clear]
  · rw [if_neg hx, Function.update_of_ne hx, absorbAll_children]

theorem merge_succ {depth : ℕ} (h : m.merge (depth + 1) s st = some st') :
    (m.children (st s) = [] ∧ st' = st) ∨
      (m.children (st s) ≠ [] ∧ ∃ middle,
        (m.children (st s)).foldlM (fun st child => m.merge depth child st) st = some middle ∧
          st' = m.clearNode s ((m.children (middle s)).foldl (m.absorbChild s) middle)) := by
  rw [merge] at h
  split at h
  next hnil =>
    cases h
    exact .inl ⟨List.isEmpty_iff.mp hnil, rfl⟩
  next hne =>
    rw [Option.map_eq_some_iff] at h
    rcases h with ⟨middle, hmiddle, rfl⟩
    exact .inr ⟨fun hnil => hne (List.isEmpty_iff.mpr hnil), middle, hmiddle, rfl⟩

/-- A node without children stays as it is. -/
theorem merge_keeps {depth : ℕ} (h : m.merge depth s st = some st')
    (hx : m.children (st x) = []) : st' x = st x := by
  induction depth generalizing s st st' with
  | zero => cases h
  | succ depth ih =>
      rcases merge_succ h with ⟨-, rfl⟩ | ⟨hne, middle, hmiddle, rfl⟩
      · rfl
      · have hother : x ≠ s := fun heq => hne (heq ▸ hx)
        rw [clearNode_other hother]
        have hkept : m.children (middle x) = [] ∧ middle x = st x := by
          apply foldlM_keeps (fun child _ st₁ st₂ hst₁ hcall => ?_) hmiddle ⟨hx, rfl⟩
          have hsame := ih hcall hst₁.1
          exact ⟨by rw [hsame]; exact hst₁.1, hsame.trans hst₁.2⟩
        exact hkept.2

/-- Lists of children are kept or cleared. -/
theorem merge_children {depth : ℕ} (h : m.merge depth s st = some st') (x : ι) :
    m.children (st' x) = m.children (st x) ∨ m.children (st' x) = [] := by
  induction depth generalizing s st st' with
  | zero => cases h
  | succ depth ih =>
      rcases merge_succ h with ⟨-, rfl⟩ | ⟨hne, middle, hmiddle, rfl⟩
      · exact .inl rfl
      · rw [clearNode_children]
        split
        next => exact .inr rfl
        next =>
          apply foldlM_keeps (P := fun st₁ => m.children (st₁ x) = m.children (st x) ∨
            m.children (st₁ x) = []) (fun child _ st₁ st₂ hst₁ hcall => ?_) hmiddle (.inl rfl)
          rcases ih hcall with hsame | hnil
          · rw [hsame]
            exact hst₁
          · exact .inr hnil

/-- A call that ends does so with more room for its recursion. -/
theorem merge_mono {depth : ℕ} (more : ℕ) (h : m.merge depth s st = some st') :
    m.merge (depth + more) s st = some st' := by
  induction depth generalizing s st st' with
  | zero => cases h
  | succ depth ih =>
      rw [Nat.add_right_comm, merge]
      rw [merge] at h
      split at h
      next hnil =>
        rw [if_pos hnil]
        exact h
      next hne =>
        rw [if_neg hne]
        rw [Option.map_eq_some_iff] at h ⊢
        rcases h with ⟨middle, hmiddle, hst'⟩
        exact ⟨middle, foldlM_mono (fun _ _ _ hcall => ih hcall) hmiddle, hst'⟩

theorem merge_mono_le {depth depth' : ℕ} (hle : depth ≤ depth')
    (h : m.merge depth s st = some st') : m.merge depth' s st = some st' := by
  have hmore := merge_mono (depth' - depth) h
  rwa [Nat.add_sub_cancel' hle] at hmore

/-- The node of the call has no children behind it. -/
theorem merge_clears {depth : ℕ} (h : m.merge depth s st = some st') :
    m.children (st' s) = [] := by
  cases depth with
  | zero => cases h
  | succ depth =>
      rcases merge_succ h with ⟨hnil, rfl⟩ | ⟨_, middle, _, rfl⟩
      · exact hnil
      · rw [clearNode_children, if_pos rfl]

theorem mergeAll_clears {depth : ℕ} {ids : List ι} (h : m.mergeAll depth ids st = some st') :
    ∀ s ∈ ids, m.children (st' s) = [] := by
  have hfold := foldlM_establishes (P := fun _ => True)
    (Q := fun s (st₁ : Store ι α) => m.children (st₁ s) = [])
    (fun s _ st₁ st₂ _ hcall => by
      refine ⟨True.intro, merge_clears hcall, fun x hx => ?_⟩
      rw [merge_keeps hcall hx]
      exact hx) h True.intro
  exact hfold.2.1

section Invariant

variable {P : Store ι α → Prop} (habsorb : ∀ s st child, P st → P (m.absorbChild s st child))
  (hclear : ∀ s st, P st → P (m.clearNode s st))

include habsorb hclear

/-- What taking one child over and clearing a list keep is kept by a call. -/
theorem merge_invariant {depth : ℕ} (h : m.merge depth s st = some st') (hst : P st) : P st' := by
  induction depth generalizing s st st' with
  | zero => cases h
  | succ depth ih =>
      rcases merge_succ h with ⟨-, rfl⟩ | ⟨_, middle, hmiddle, rfl⟩
      · exact hst
      · have hcalled : P middle :=
          foldlM_keeps (fun child _ st₁ st₂ hst₁ hcall => ih hcall hst₁) hmiddle hst
        apply hclear
        exact List.foldlRecOn _ _ hcalled fun st₁ hst₁ child _ => habsorb s st₁ child hst₁

theorem mergeAll_invariant {depth : ℕ} {ids : List ι} (h : m.mergeAll depth ids st = some st')
    (hst : P st) : P st' :=
  foldlM_keeps (fun _ _ _ _ hst₁ hcall => merge_invariant habsorb hclear hcall hst₁) h hst

end Invariant

/-! ## Descents that end -/

theorem Shrunk.merge {depth : ℕ} (hst : m.Shrunk start st) (h : m.merge depth s st = some st') :
    m.Shrunk start st' := by
  intro x
  rcases merge_children h x with hsame | hnil
  · rw [hsame]
    exact hst x
  · exact .inr hnil

/-- A call changes descendants only. -/
theorem merge_frame {depth : ℕ} (hst : m.Shrunk start st) (h : m.merge depth s st = some st')
    (hx : ¬ Relation.ReflTransGen (m.Child start) x s) : st' x = st x := by
  induction depth generalizing s st st' with
  | zero => cases h
  | succ depth ih =>
      rcases merge_succ h with ⟨-, rfl⟩ | ⟨hne, middle, hmiddle, rfl⟩
      · rfl
      · have hother : x ≠ s := fun heq => hx (heq ▸ .refl)
        rw [clearNode_other hother]
        have hchildren := hst.same hne
        have hkept : m.Shrunk start middle ∧ middle x = st x := by
          apply foldlM_keeps (fun child hchild st₁ st₂ hst₁ hcall => ?_) hmiddle ⟨hst, rfl⟩
          have hbelow : ¬ Relation.ReflTransGen (m.Child start) x child := by
            intro hreach
            rw [hchildren] at hchild
            exact hx (hreach.tail hchild)
          exact ⟨hst₁.1.merge hcall, (ih hst₁.1 hcall hbelow).trans hst₁.2⟩
        exact hkept.2

/-- What the call does to a node below which every descent ends. -/
theorem merge_settled {depth : ℕ} (hacc : Acc (m.Child start) s) (hst : m.Settled start st)
    (h : m.merge depth s st = some st') :
    m.Settled start st' ∧ m.children (st' s) = [] ∧ m.Folded start s (st' s) := by
  induction depth generalizing s st st' with
  | zero => cases h
  | succ depth ih =>
      rcases merge_succ h with ⟨hnil, rfl⟩ | ⟨hne, middle, hmiddle, rfl⟩
      · exact ⟨hst, hnil, hst.folded hnil⟩
      · have hsame := hst.same hne
        have hchild : ∀ child ∈ m.children (st s), m.Child start child s := by
          intro child hmem
          rw [hsame] at hmem
          exact hmem
        have hself : ∀ child ∈ m.children (st s),
            ¬ Relation.ReflTransGen (m.Child start) s child := by
          intro child hmem hreach
          have hcycle := Relation.TransGen.tail' hreach (hchild child hmem)
          exact not_cycle_of_acc hacc hcycle
        have hfold := foldlM_establishes
          (P := fun st₁ => m.Settled start st₁ ∧ st₁ s = st s)
          (Q := fun child st₁ => m.children (st₁ child) = [])
          (fun child hmem st₁ st₂ hst₁ hcall => by
            have hstep := ih (hacc.inv (hchild child hmem)) hst₁.1 hcall
            have hframe := merge_frame hst₁.1.shrunk hcall (hself child hmem)
            refine ⟨⟨hstep.1, hframe.trans hst₁.2⟩, hstep.2.1, fun x hx => ?_⟩
            rw [merge_keeps hcall hx]
            exact hx) hmiddle ⟨hst, rfl⟩
        have hvalues : List.Forall₂ (m.Folded start) (m.children (start s))
            ((m.children (start s)).map middle) := by
          rw [List.forall₂_map_right_iff, List.forall₂_same]
          intro child hmem
          rw [← hsame] at hmem
          exact hfold.1.1.folded (hfold.2.1 child hmem)
        have hmiddle_s : middle s = start s := hfold.1.2.trans hsame
        have hvalue : m.clearNode s ((m.children (middle s)).foldl (m.absorbChild s) middle) s =
            m.clear (((m.children (start s)).map middle).foldl
              (fun node child => m.absorb child node) (start s)) := by
          have hnot : s ∉ m.children (middle s) := by
            intro hmem
            rw [hmiddle_s, ← hsame] at hmem
            exact hself s hmem .refl
          rw [clearNode, Function.update_self, absorbAll_self _ hnot, hmiddle_s]
        have hfolded := Folded.node (hsame ▸ hne) hvalues
        rw [← hvalue] at hfolded
        have hnone : m.children
            (m.clearNode s ((m.children (middle s)).foldl (m.absorbChild s) middle) s) = [] := by
          rw [clearNode_children, if_pos rfl]
        refine ⟨⟨fun x => ?_⟩, hnone, hfolded⟩
        by_cases hx : x = s
        · rw [hx]
          exact .inr ⟨hnone, hfolded⟩
        · rw [clearNode_other hx]
          exact hfold.1.1.settled x

/-- The calls for the nodes of a list end if each of them does. -/
theorem exists_mergeAll {ids : List ι}
    (hcall : ∀ s ∈ ids, ∀ st, m.Settled start st →
      ∃ depth st', m.merge depth s st = some st' ∧ m.Settled start st')
    (hst : m.Settled start st) : ∃ depth st', m.mergeAll depth ids st = some st' := by
  unfold mergeAll
  induction ids generalizing st with
  | nil => exact ⟨0, st, rfl⟩
  | cons s rest ih =>
      rcases hcall s List.mem_cons_self st hst with ⟨first, middle, hfirst, hmiddle⟩
      rcases ih (fun c hc => hcall c (List.mem_cons_of_mem _ hc)) hmiddle with
        ⟨second, last, hsecond⟩
      refine ⟨max first second, last, ?_⟩
      rw [List.foldlM_cons, merge_mono_le (le_max_left first second) hfirst]
      exact foldlM_mono (fun _ _ _ => merge_mono_le (le_max_right first second)) hsecond

/-- The call ends if every descent from the node does. -/
theorem exists_merge (hacc : Acc (m.Child start) s) (hst : m.Settled start st) :
    ∃ depth st', m.merge depth s st = some st' := by
  induction hacc generalizing st with
  | intro s hbelow ih =>
      by_cases hnil : m.children (st s) = []
      · refine ⟨1, st, ?_⟩
        rw [merge, if_pos (List.isEmpty_iff.mpr hnil)]
      · have hsame := hst.same hnil
        have hcall : ∀ child ∈ m.children (st s), ∀ st, m.Settled start st →
            ∃ depth st', m.merge depth child st = some st' ∧ m.Settled start st' := by
          intro child hmem st hst
          rw [hsame] at hmem
          rcases ih child hmem hst with ⟨depth, st', hmerge⟩
          exact ⟨depth, st', hmerge, (merge_settled (hbelow child hmem) hst hmerge).1⟩
        rcases exists_mergeAll hcall hst with ⟨depth, middle, hmiddle⟩
        unfold mergeAll at hmiddle
        refine ⟨depth + 1, m.clearNode s ((m.children (middle s)).foldl (m.absorbChild s) middle), ?_⟩
        rw [merge, if_neg (fun h => hnil (List.isEmpty_iff.mp h)), hmiddle]
        rfl

end Merging

end Library
end Katana
