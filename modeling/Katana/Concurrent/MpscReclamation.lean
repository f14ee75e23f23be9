import Katana.Concurrent.MpscCount

/-!
# The nodes of the multi-producer queue

Nodes are made by producers and deleted by the consumer, without any count of who still
uses them.  At any time the nodes in use are the one in front, those with a value that has
not been popped, and those that a producer has not yet put at `head_`.  So the destructor,
which pops what is left and deletes the node in front, leaves none.
-/

namespace Katana
namespace Concurrent

open Library

namespace MpscSystem

variable {T : Type*} {s next : MpscSystem T} {nodes nodes' : List ℕ}

/-- `pop`, with the change of `size_` at its end. -/
def popWhole (s : MpscSystem T) : Option (MpscSystem T) :=
  (s.step .pop).bind fun next => if next.subSize then next.step .subtract else some next

/-- The loop of the destructor, with a bound for its passes. -/
def drain : ℕ → MpscSystem T → Option (MpscSystem T)
  | 0, _ => none
  | n + 1, s =>
      s.popWhole.bind fun next => if s.nextInFront.isSome then drain n next else some next

/-- `~mpsc_queue`; nothing follows if a node is deleted that is not there. -/
def destroy (passes : ℕ) (s : MpscSystem T) : Option (MpscSystem T) :=
  (drain passes s).bind fun s =>
    match s.queue.heap s.queue.tail with
    | none => none
    | some _ => some { s with queue := s.queue.setNode s.queue.tail none }

/-- No thread is inside a call. -/
def Quiescent (s : MpscSystem T) : Prop :=
  (∀ t, s.producers t = .idle) ∧ s.subSize = false

/-- A producer has made the node and not yet put it at `head_`. -/
def Private (s : MpscSystem T) (node : ℕ) : Prop :=
  ∃ t value counted, s.producers t = .exchange value node counted

/-- A node that is not in the list is still private. -/
def Used (nodes : List ℕ) (s : MpscSystem T) : Prop :=
  ∀ node, (s.queue.heap node).isSome = true → node ∈ s.queue.tail :: nodes ∨ s.Private node

theorem used_create (maxSize node : ℕ) : Used [] (create maxSize node : MpscSystem T) := by
  intro other hother
  by_cases heq : other = node
  · exact .inl (by simp [heq, create, MpscQueue.create])
  · simp [create, MpscQueue.create, heq] at hother

/-! ## Producers -/

/-- A producer that has no private node goes on without one. -/
theorem Private.setPc {t node : ℕ} {pc : MpscPc T} (h : s.Private node)
    (hpc : ∀ value counted, s.producers t ≠ .exchange value node counted) :
    (s.setPc t pc).Private node := by
  rcases h with ⟨u, value, counted, hu⟩
  refine ⟨u, value, counted, ?_⟩
  rw [setPc_other pc s ?_, hu]
  intro heq
  exact hpc value counted (heq ▸ hu)

theorem Used.setPc (h : Used nodes s) {t : ℕ} {pc : MpscPc T}
    (hold : (s.producers t).node = none) : Used nodes (s.setPc t pc) := by
  intro node hnode
  refine (h node hnode).imp_right fun hprivate => hprivate.setPc ?_
  intro value counted hpc
  rw [hpc] at hold
  cases hold

theorem Used.setSize (h : Used nodes s) (size : ℕ) (subSize : Bool) :
    Used nodes { s with queue := { s.queue with size }, subSize } :=
  h

theorem Used.compareSize (h : Used nodes s) {t oldSize : ℕ} {value : T}
    (hold : (s.producers t).node = none) (spurious : Bool) :
    Used nodes (s.compareSize t value oldSize spurious) := by
  unfold MpscSystem.compareSize
  split
  · exact h.setPc hold
  split
  · exact (h.setPc hold).setSize _ _
  · exact h.setPc hold

theorem Used.newNode (h : Used nodes s) {t node : ℕ} {value : T} {counted : Bool}
    (hpc : s.producers t = .allocate value counted) :
    Used nodes
      { s.setPc t (.exchange value node counted) with
        queue := s.queue.setNode node (some { data := some value }) } := by
  intro other hother
  by_cases heq : other = node
  · right
    rw [heq]
    exact ⟨t, value, counted, setPc_self t _ s⟩
  · dsimp only at hother
    rw [MpscQueue.heap_setNode_other heq] at hother
    refine (h other hother).imp_right fun hprivate => ?_
    have hkept : (s.setPc t (.exchange value node counted)).Private other := by
      apply hprivate.setPc
      intro value' counted' hpc'
      rw [hpc] at hpc'
      cases hpc'
    exact hkept

theorem Used.exchangeHead (h : Used nodes s) {t node : ℕ} {value : T} {counted : Bool}
    (hpc : s.producers t = .exchange value node counted) :
    Used (nodes ++ [node]) (s.exchangeHead t value node counted) := by
  intro other hother
  show other ∈ s.queue.tail :: (nodes ++ [node]) ∨ _
  by_cases heq : other = node
  · left
    simp [heq]
  · rcases h other hother with hmem | hprivate
    · left
      rw [← List.cons_append]
      exact List.mem_append_left _ hmem
    · right
      have hkept : (s.setPc t (.link s.queue.head node counted)).Private other := by
        apply hprivate.setPc
        intro value' counted' hpc'
        rw [hpc] at hpc'
        cases hpc'
        exact heq rfl
      exact hkept

theorem Used.storeNext (h : Used nodes s) {t prev node : ℕ} {counted : Bool}
    (hpc : s.producers t = .link prev node counted)
    (hstore : s.storeNext t prev node counted = some next) : Used nodes next := by
  unfold MpscSystem.storeNext at hstore
  split at hstore
  next => cases hstore
  next entry hentry =>
    cases hstore
    intro other hother
    have hbefore : (s.queue.heap other).isSome = true := by
      by_cases heq : other = prev
      · rw [heq, hentry]
        rfl
      · dsimp only at hother
        rwa [MpscQueue.heap_setNode_other heq] at hother
    refine (h other hbefore).imp_right fun hprivate => ?_
    have hkept : (s.setPc t
        (if counted && decide (0 < s.queue.maxSize) then .addSize else .idle)).Private other := by
      apply hprivate.setPc
      intro value' counted' hpc'
      rw [hpc] at hpc'
      cases hpc'
    exact hkept

/-! ## The consumer -/

/-- What a pop that takes a value does to the nodes. -/
theorem pop_nodes {node : ℕ} (hfront : s.nextInFront = some node) (hpop : s.pop = some next)
    (hne : node ≠ s.queue.tail) : next.queue.tail = node ∧
      next.queue.heap s.queue.tail = none ∧
        ∀ other, other ≠ s.queue.tail →
          ((next.queue.heap other).isSome = true ↔ (s.queue.heap other).isSome = true) ∧
            next.queue.nextOf other = s.queue.nextOf other := by
  unfold MpscSystem.nextInFront at hfront
  unfold MpscSystem.pop at hpop
  cases hentry : s.queue.heap s.queue.tail with
  | none =>
      rw [hentry] at hfront
      cases hfront
  | some front =>
      rw [hentry] at hfront hpop
      have hlink : front.next = some node := hfront
      simp only [hlink] at hpop
      split at hpop
      next behind value hnode =>
        cases hpop
        refine ⟨rfl, MpscQueue.heap_setNode_self, fun other hother => ?_⟩
        by_cases heq : other = node
        · subst heq
          simp [MpscQueue.nextOf, MpscQueue.setNode, hother, hnode]
        · simp [MpscQueue.nextOf, MpscQueue.setNode, hother, heq]
      next => cases hpop

/-- The neighbour behind a node is the same in both lists of a state, and a pop does not
change it. -/
theorem Linked.neighbour_eq (h : Linked nodes s) (h' : Linked nodes' next)
    (hproducers : next.producers = s.producers) {a b b' : ℕ}
    (hnext : next.queue.nextOf a = s.queue.nextOf a) (hb : [a, b] <:+: s.queue.tail :: nodes)
    (hb' : [a, b'] <:+: next.queue.tail :: nodes') : b = b' := by
  rcases h.links a b hb with hlinked | ⟨hopen, t, counted, ht⟩
  · rcases h'.links a b' hb' with hlinked' | ⟨hopen', -⟩
    · rw [hnext, hlinked] at hlinked'
      exact Option.some.inj hlinked'
    · rw [hnext, hlinked] at hopen'
      cases hopen'
  · have hpair := (h'.linking t a b counted (hproducers ▸ ht)).1
    exact neighbour_unique h'.nodup hpair hb'

/-- Lists with the same first element and the same neighbours are the same. -/
theorem eq_of_neighbours (first : ℕ) {l l' : List ℕ} (hlength : l.length = l'.length)
    (h : ∀ a b b', [a, b] <:+: first :: l → [a, b'] <:+: first :: l' → b = b') : l = l' := by
  induction l generalizing first l' with
  | nil => exact (List.length_eq_zero_iff.mp hlength.symm).symm
  | cons b l ih =>
      cases l' with
      | nil => cases hlength
      | cons b' l' =>
          have hfirst : b = b' := h first b b' ⟨[], l, rfl⟩ ⟨[], l', rfl⟩
          subst hfirst
          rw [ih b (Nat.succ.inj hlength)]
          intro a c c' hc hc'
          apply h a c c'
          · exact hc.trans (List.suffix_cons _ _).isInfix
          · exact hc'.trans (List.suffix_cons _ _).isInfix

theorem Linked.length_eq (h : Linked nodes s) :
    s.popped.length + nodes.length = s.exchanged.length := by
  rcases h.stored with ⟨pending, hexchanged, hstored⟩
  have hlength := congrArg List.length hstored
  rw [List.length_map, List.length_map] at hlength
  rw [hexchanged, List.length_append, hlength]

theorem Used.pop (h : Used nodes s) (hlinked : Linked nodes s) {node : ℕ}
    (hfront : s.nextInFront = some node) :
    ∃ value nodes' s', s.pop = some s' ∧ s'.popped = s.popped ++ [value] ∧
      Linked nodes' s' ∧ Used nodes' s' := by
  rcases hlinked.pop_some hfront with ⟨value, nodes', s', hpop, -, hpopped, hlinked'⟩
  refine ⟨value, nodes', s', hpop, hpopped, hlinked', ?_⟩
  have hfields := pop_fields hfront hpop
  have hcount := hlinked.length_eq
  have hcount' := hlinked'.length_eq
  rw [hpopped, hfields.2.2.2.1, List.length_append, List.length_singleton] at hcount'
  cases nodes with
  | nil =>
      rw [List.length_nil] at hcount
      omega
  | cons first rest =>
      have hhere : [s.queue.tail, first] <:+: s.queue.tail :: first :: rest := ⟨[], rest, rfl⟩
      have hfirst : first = node := by
        have hload : s.queue.nextOf s.queue.tail = some node := hfront
        rcases hlinked.links _ _ hhere with hlink | ⟨hopen, -⟩
        · rw [hload] at hlink
          exact (Option.some.inj hlink).symm
        · rw [hload] at hopen
          cases hopen
      subst hfirst
      have hout := (List.nodup_cons.mp hlinked.nodup).1
      have hne : first ≠ s.queue.tail := by
        rintro rfl
        exact hout List.mem_cons_self
      rcases pop_nodes hfront hpop hne with ⟨htail, hgone, hothers⟩
      -- the rest of the list is the one behind the new front
      have hrest : rest = nodes' := by
        apply eq_of_neighbours first
        · rw [List.length_cons] at hcount
          omega
        · intro a b b' hb hb'
          have ha : a ≠ s.queue.tail := by
            rintro rfl
            exact hout (neighbour_mem hb).1
          apply hlinked.neighbour_eq hlinked' hfields.1 (hothers a ha).2
          · exact hb.trans (List.suffix_cons _ _).isInfix
          · rwa [htail]
      intro other hother
      have hkept : other ≠ s.queue.tail := by
        rintro rfl
        rw [hgone] at hother
        cases hother
      rcases h other ((hothers other hkept).1.mp hother) with hmem | ⟨t, v, counted, ht⟩
      · left
        rw [htail, ← hrest]
        exact (List.mem_cons.mp hmem).resolve_left hkept
      · right
        exact ⟨t, v, counted, by rw [hfields.1, ht]⟩

/-! ## Runs -/

theorem Used.advance (h : Used nodes s) (hlinked : Linked nodes s) {t : ℕ}
    (hstep : s.advance t = some next) : ∃ nodes', Linked nodes' next ∧ Used nodes' next := by
  unfold MpscSystem.advance at hstep
  cases hpc : s.producers t with
  | idle =>
      rw [hpc] at hstep
      cases hstep
  | loadSize value =>
      rw [hpc] at hstep
      cases hstep
      have hold : (s.producers t).node = none := by rw [hpc]; rfl
      exact ⟨nodes, hlinked.setPc hold rfl, h.setPc hold⟩
  | compareSize value oldSize =>
      rw [hpc] at hstep
      cases hstep
      have hold : (s.producers t).node = none := by rw [hpc]; rfl
      exact ⟨nodes, hlinked.compareSize hold false, h.compareSize hold false⟩
  | allocate value counted =>
      rw [hpc] at hstep
      cases hstep
  | exchange value node counted =>
      rw [hpc] at hstep
      cases hstep
      exact ⟨nodes ++ [node], hlinked.exchangeHead hpc, h.exchangeHead hpc⟩
  | link prev node counted =>
      rw [hpc] at hstep
      rcases hlinked.storeNext hpc with ⟨s', hstore, hlinked'⟩
      cases hstep.symm.trans hstore
      exact ⟨nodes, hlinked', h.storeNext hpc hstep⟩
  | addSize =>
      rw [hpc] at hstep
      cases hstep
      have hold : (s.producers t).node = none := by rw [hpc]; rfl
      exact ⟨nodes, (hlinked.setPc hold rfl).setSize _ _, (h.setPc hold).setSize _ _⟩

/-- One step of the queue, whoever takes it. -/
theorem Used.step (h : Used nodes s) (hlinked : Linked nodes s) {label : MpscLabel T}
    (hstep : s.step label = some next) : ∃ nodes', Linked nodes' next ∧ Used nodes' next := by
  cases label with
  | push t value =>
      simp only [MpscSystem.step] at hstep
      split at hstep
      next hpc =>
        cases hstep
        have hold : (s.producers t).node = none := by rw [hpc]; rfl
        exact ⟨nodes, hlinked.setPc hold rfl, h.setPc hold⟩
      next => cases hstep
  | tryPush t value =>
      simp only [MpscSystem.step] at hstep
      split at hstep
      next hpc =>
        cases hstep
        have hold : (s.producers t).node = none := by rw [hpc]; rfl
        refine ⟨nodes, hlinked.setPc hold ?_, h.setPc hold⟩
        split <;> rfl
      next => cases hstep
  | newNode t node =>
      simp only [MpscSystem.step] at hstep
      split at hstep
      next value counted hpc hfree =>
        cases hstep
        exact ⟨nodes, hlinked.newNode hpc hfree, h.newNode hpc⟩
      next => cases hstep
  | advance t => exact h.advance hlinked hstep
  | failSpuriously t =>
      simp only [MpscSystem.step] at hstep
      split at hstep
      next value oldSize hpc =>
        cases hstep
        have hold : (s.producers t).node = none := by rw [hpc]; rfl
        exact ⟨nodes, hlinked.compareSize hold true, h.compareSize hold true⟩
      next => cases hstep
  | pop =>
      simp only [MpscSystem.step] at hstep
      split at hstep
      next => cases hstep
      next =>
        cases hfront : s.nextInFront with
        | none =>
            cases hstep.symm.trans (pop_none hfront (hlinked.alive _ (by simp)))
            exact ⟨nodes, hlinked, h⟩
        | some node =>
            rcases h.pop hlinked hfront with ⟨value, nodes', s', hpop, -, hlinked', hused⟩
            cases hstep.symm.trans hpop
            exact ⟨nodes', hlinked', hused⟩
  | subtract =>
      simp only [MpscSystem.step] at hstep
      split at hstep
      next =>
        cases hstep
        exact ⟨nodes, hlinked.setSize _ _, h.setSize _ _⟩
      next => cases hstep

theorem exec_used {maxSize node : ℕ} {labels : List (MpscLabel T)}
    (hexec : exec step (create maxSize node) labels = some s) :
    ∃ nodes, Linked nodes s ∧ Used nodes s := by
  have hkeep : ∀ (s : MpscSystem T) label next, (∃ nodes, Linked nodes s ∧ Used nodes s) →
      s.step label = some next → ∃ nodes, Linked nodes next ∧ Used nodes next := by
    intro s label next h hstep
    rcases h with ⟨nodes, hlinked, hused⟩
    exact hused.step hlinked hstep
  exact exec_invariant hkeep ⟨[], linked_create maxSize node, used_create maxSize node⟩ hexec

/-! ## The destructor -/

/-- A whole pop when no thread is inside a call. -/
theorem Quiescent.popWhole (h : s.Quiescent) (hlinked : Linked nodes s) (hused : Used nodes s) :
    ∃ nodes' next, s.popWhole = some next ∧ Linked nodes' next ∧ Used nodes' next ∧
      next.Quiescent ∧ next.exchanged = s.exchanged ∧
        next.popped.length = s.popped.length + if s.nextInFront.isSome then 1 else 0 := by
  have hstep : s.step .pop = s.pop := by
    simp [MpscSystem.step, h.2]
  cases hfront : s.nextInFront with
  | none =>
      have hpop := pop_none hfront (hlinked.alive _ (by simp))
      refine ⟨nodes, s, ?_, hlinked, hused, h, rfl, rfl⟩
      simp [MpscSystem.popWhole, hstep, hpop, h.2]
  | some node =>
      rcases hused.pop hlinked hfront with ⟨value, nodes', s', hpop, hpopped, hlinked', hused'⟩
      rcases pop_fields hfront hpop with ⟨hproducers, hmax, hsize, hexchanged, hsub⟩
      have hlength : s'.popped.length = s.popped.length + 1 := by
        rw [hpopped, List.length_append, List.length_singleton]
      by_cases hcounts : s'.subSize = true
      · have hwhole : ∃ size, s.popWhole = some
            { s' with queue := { s'.queue with size := size }, subSize := false } := by
          refine ⟨(s'.queue.size + (WORD - 1)) % WORD, ?_⟩
          rw [MpscSystem.popWhole, hstep, hpop, Option.bind_some, if_pos hcounts,
            MpscSystem.step, if_pos hcounts]
        rcases hwhole with ⟨size, hwhole⟩
        have hlinked'' := hlinked'.setSize size false
        have hused'' := hused'.setSize size false
        refine ⟨nodes', _, hwhole, hlinked'', hused'', ⟨?_, rfl⟩, hexchanged, hlength⟩
        intro t
        exact (congrFun hproducers t).trans (h.1 t)
      · refine ⟨nodes', s', ?_, hlinked', hused', ⟨?_, ?_⟩, hexchanged, hlength⟩
        · simp [MpscSystem.popWhole, hstep, hpop, hcounts]
        · intro t
          exact (congrFun hproducers t).trans (h.1 t)
        · simpa using hcounts

theorem Quiescent.drain (h : s.Quiescent) (hlinked : Linked nodes s) (hused : Used nodes s)
    {passes : ℕ} (hpasses : s.exchanged.length - s.popped.length < passes) :
    ∃ next, s.drain passes = some next ∧ Linked [] next ∧ Used [] next ∧ next.Quiescent ∧
      next.exchanged = s.exchanged := by
  induction passes generalizing s nodes with
  | zero => omega
  | succ passes ih =>
      rcases h.popWhole hlinked hused with
        ⟨nodes', next, hpop, hlinked', hused', hquiescent, hexchanged, hpopped⟩
      have hcount := hlinked'.length_eq
      rw [MpscSystem.drain, hpop, Option.bind_some]
      cases hfront : s.nextInFront with
      | none =>
          rw [hfront] at hpopped
          have hempty : s.popped.length = s.exchanged.length := by
            rcases hlinked.nextInFront_eq_none.mp hfront with hall | ⟨t, node, counted, _, ht, -⟩
            · rw [hall]
            · rw [h.1 t] at ht
              cases ht
          have hnodes : nodes' = [] := by
            apply List.length_eq_zero_iff.mp
            rw [hexchanged] at hcount
            simp only [Option.isSome_none, Bool.false_eq_true, if_false] at hpopped
            omega
          subst hnodes
          exact ⟨next, rfl, hlinked', hused', hquiescent, hexchanged⟩
      | some node =>
          rw [hfront] at hpopped
          simp only [Option.isSome_some, if_true] at hpopped ⊢
          rw [hexchanged] at hcount
          rcases ih hquiescent hlinked' hused' (by rw [hexchanged]; omega) with
            ⟨final, hdrain, hlinked'', hused'', hquiescent', hexchanged'⟩
          exact ⟨final, hdrain, hlinked'', hused'', hquiescent', hexchanged'.trans hexchanged⟩

/-- What is left behind the destructor: nothing, and every value has been popped. -/
theorem Quiescent.destroy (h : s.Quiescent) (hlinked : Linked nodes s) (hused : Used nodes s)
    {passes : ℕ} (hpasses : s.exchanged.length - s.popped.length < passes) :
    ∃ final, s.destroy passes = some final ∧ final.popped = s.exchanged ∧
      ∀ node, final.queue.heap node = none := by
  rcases h.drain hlinked hused hpasses with
    ⟨next, hdrain, hlinked', hused', hquiescent, hexchanged⟩
  rcases Option.isSome_iff_exists.mp (hlinked'.alive next.queue.tail (by simp)) with
    ⟨front, hentry⟩
  refine ⟨{ next with queue := next.queue.setNode next.queue.tail none }, ?_, ?_, ?_⟩
  · rw [MpscSystem.destroy, hdrain, Option.bind_some, hentry]
  · rcases hlinked'.stored with ⟨pending, hpending, hstored⟩
    have hnone : pending = [] := by
      simpa using hstored.symm
    rw [hnone, List.append_nil, hexchanged] at hpending
    exact hpending.symm
  · intro node
    by_cases heq : node = next.queue.tail
    · rw [heq]
      exact MpscQueue.heap_setNode_self
    · show (next.queue.setNode next.queue.tail none).heap node = none
      rw [MpscQueue.heap_setNode_other heq]
      by_contra hsome
      rcases hused' node (Option.isSome_iff_ne_none.mpr hsome) with hmem | ⟨t, v, counted, ht⟩
      · exact heq (List.mem_singleton.mp hmem)
      · rw [hquiescent.1 t] at ht
        cases ht

/-- In every state that the threads reach, the nodes in use are one for every value that has
not been popped, the one in front, and the private ones of producers; and when no thread is
inside a call, the destructor comes to its end, pops the values that are left in order, and
leaves no node. -/
theorem exec_reclaimed {maxSize node : ℕ} {labels : List (MpscLabel T)}
    (hexec : exec step (create maxSize node) labels = some s) :
    (∃ nodes : List ℕ, nodes.Nodup ∧
      nodes.length = s.exchanged.length - s.popped.length + 1 ∧
        ∀ other, (s.queue.heap other).isSome = true ↔ other ∈ nodes ∨ s.Private other) ∧
      (s.Quiescent → ∀ passes > s.exchanged.length - s.popped.length,
        ∃ final, s.destroy passes = some final ∧ final.popped = s.exchanged ∧
          ∀ other, final.queue.heap other = none) := by
  rcases exec_used hexec with ⟨nodes, hlinked, hused⟩
  constructor
  · refine ⟨s.queue.tail :: nodes, hlinked.nodup, ?_, fun other => ⟨hused other, fun h => ?_⟩⟩
    · have hcount := hlinked.length_eq
      rw [List.length_cons]
      omega
    · rcases h with hmem | ⟨t, value, counted, ht⟩
      · exact hlinked.alive other hmem
      · rw [(hlinked.exchanging t value other counted ht).2]
        rfl
  · intro hquiescent passes hpasses
    exact hquiescent.destroy hlinked hused hpasses

/-- Two values have been pushed, and none has been popped. -/
def leftBehind : List (MpscLabel ℕ) :=
  [.push 1 10, .newNode 1 1, .advance 1, .push 2 20, .newNode 2 2, .advance 2, .advance 2,
    .advance 1]

theorem exec_reclaimed_leftBehind :
    ∃ s final : MpscSystem ℕ, exec step (create 0 0) leftBehind = some s ∧
      s.destroy 3 = some final ∧ final.popped = [10, 20] ∧
        ∀ other, final.queue.heap other = none := by
  obtain ⟨s, hs⟩ : ∃ s : MpscSystem ℕ, exec step (create 0 0) leftBehind = some s := ⟨_, rfl⟩
  have hexchanged : (exec step (create 0 0) leftBehind).map (fun s => (s.exchanged, s.popped)) =
      some ([10, 20], []) := by
    decide
  have hidle : ∀ t, (exec step (create 0 0) leftBehind).map (fun s => (s.producers t, s.subSize)) =
      some (MpscPc.idle, false) := by
    intro t
    by_cases hfirst : t = 1
    · subst hfirst
      rfl
    · by_cases hsecond : t = 2
      · subst hsecond
        rfl
      · simp [leftBehind, exec, MpscSystem.step, advance, create, MpscQueue.create, setPc,
          exchangeHead, storeNext, MpscQueue.setNode, Function.update, hfirst, hsecond]
  rw [hs] at hexchanged hidle
  injection hexchanged with hexchanged
  injection hexchanged with hexchanged hpopped
  have hquiescent : s.Quiescent := by
    constructor
    · intro t
      exact congrArg Prod.fst (Option.some.inj (hidle t))
    · exact congrArg Prod.snd (Option.some.inj (hidle 0))
  have hpasses : 3 > s.exchanged.length - s.popped.length := by
    rw [hexchanged, hpopped]
    decide
  rcases (exec_reclaimed hs).2 hquiescent 3 hpasses with ⟨final, hdestroy, hall, hgone⟩
  exact ⟨s, final, hs, hdestroy, hall.trans hexchanged, hgone⟩

end MpscSystem

end Concurrent
end Katana
