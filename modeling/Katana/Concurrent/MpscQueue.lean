import Katana.Library.Transition
import Katana.Concurrent.RingQueue

/-!
# The multi-producer queue

`mpsc_queue` is a linked list with a node in front that holds no value any more.
A producer first exchanges `head_` for its node and then stores the link from
the node it got, so the list is in pieces while producers are between the two.
A step is one access to shared memory together with the work of the thread that
nobody else sees.  Nodes are addresses, and an address may be used again after
its node has been deleted.
-/

namespace Katana
namespace Concurrent

open Library

structure MpscNode (T : Type*) where
  next : Option ℕ := none
  data : Option T := none

structure MpscQueue (T : Type*) where
  heap : ℕ → Option (MpscNode T)
  head : ℕ
  tail : ℕ
  size : ℕ := 0
  maxSize : ℕ

/-- Program counter of a producer with its local variables.  `counted` says that
`size_` is still to be increased, as `push` does it at its end. -/
inductive MpscPc (T : Type*) where
  | idle
  | loadSize (value : T)
  | compareSize (value : T) (oldSize : ℕ)
  | allocate (value : T) (counted : Bool)
  | exchange (value : T) (node : ℕ) (counted : Bool)
  | link (prev node : ℕ) (counted : Bool)
  | addSize

/-- The queue with its threads.  No step reads the two lists: the values in the
order of the exchanges of `head_`, and those that have been popped. -/
structure MpscSystem (T : Type*) where
  queue : MpscQueue T
  producers : ℕ → MpscPc T := fun _ => .idle
  subSize : Bool := false
  exchanged : List T := []
  popped : List T := []

inductive MpscLabel (T : Type*) where
  | push (t : ℕ) (value : T)
  | tryPush (t : ℕ) (value : T)
  | newNode (t node : ℕ)
  | advance (t : ℕ)
  | failSpuriously (t : ℕ)
  | pop
  | subtract

variable {T : Type*}

namespace MpscQueue

/-- `mpsc_queue(max_size)`, with the address of its first node. -/
def create (maxSize node : ℕ) : MpscQueue T where
  heap := Function.update (fun _ => none) node (some {})
  head := node
  tail := node
  maxSize := maxSize

def setNode (node : ℕ) (entry : Option (MpscNode T)) (q : MpscQueue T) : MpscQueue T :=
  { q with heap := Function.update q.heap node entry }

end MpscQueue

namespace MpscSystem

def setPc (t : ℕ) (pc : MpscPc T) (s : MpscSystem T) : MpscSystem T :=
  { s with producers := Function.update s.producers t pc }

/-- The exchange of `head_`. -/
def exchangeHead (t : ℕ) (value : T) (node : ℕ) (counted : Bool) (s : MpscSystem T) :
    MpscSystem T :=
  { s.setPc t (.link s.queue.head node counted) with
    queue := { s.queue with head := node }
    exchanged := s.exchanged ++ [value] }

/-- The store of `prev->next`; nothing follows if `prev` is gone. -/
def storeNext (t prev node : ℕ) (counted : Bool) (s : MpscSystem T) : Option (MpscSystem T) :=
  match s.queue.heap prev with
  | none => none
  | some entry =>
      some
        { s.setPc t (if counted && 0 < s.queue.maxSize then .addSize else .idle) with
          queue := s.queue.setNode prev (some { entry with next := some node }) }

/-- The compare-exchange of `size_` with the test in front of it. -/
def compareSize (t : ℕ) (value : T) (oldSize : ℕ) (spurious : Bool) (s : MpscSystem T) :
    MpscSystem T :=
  if oldSize ≥ s.queue.maxSize then s.setPc t .idle
  else if s.queue.size = oldSize && !spurious then
    { s.setPc t (.allocate value false) with
      queue := { s.queue with size := (oldSize + 1) % WORD } }
  else s.setPc t (.compareSize value s.queue.size)

/-- The next step of a producer, except for the allocation. -/
def advance (t : ℕ) (s : MpscSystem T) : Option (MpscSystem T) :=
  match s.producers t with
  | .idle => none
  | .loadSize value => some (s.setPc t (.compareSize value s.queue.size))
  | .compareSize value oldSize => some (s.compareSize t value oldSize false)
  | .allocate _ _ => none
  | .exchange value node counted => some (s.exchangeHead t value node counted)
  | .link prev node counted => s.storeNext t prev node counted
  | .addSize =>
      some
        { s.setPc t .idle with queue := { s.queue with size := (s.queue.size + 1) % WORD } }

/-- `pop` up to the change of `size_`.  The value is moved out of the next node,
which then stays in front. -/
def pop (s : MpscSystem T) : Option (MpscSystem T) :=
  match s.queue.heap s.queue.tail with
  | none => none
  | some front =>
      match front.next with
      | none => some s
      | some next =>
          match s.queue.heap next with
          | some { next := behind, data := some value } =>
              let moved := s.queue.setNode next (some { next := behind, data := none })
              some
                { s with
                  queue := { moved.setNode s.queue.tail none with tail := next }
                  subSize := 0 < s.queue.maxSize
                  popped := s.popped ++ [value] }
          | _ => none

def step (s : MpscSystem T) : MpscLabel T → Option (MpscSystem T)
  | .push t value =>
      match s.producers t with
      | .idle => some (s.setPc t (.allocate value true))
      | _ => none
  | .tryPush t value =>
      match s.producers t with
      | .idle =>
          some (s.setPc t (if 0 < s.queue.maxSize then .loadSize value else .allocate value true))
      | _ => none
  | .newNode t node =>
      match s.producers t, s.queue.heap node with
      | .allocate value counted, none =>
          some
            { s.setPc t (.exchange value node counted) with
              queue := s.queue.setNode node (some { data := some value }) }
      | _, _ => none
  | .advance t => s.advance t
  | .failSpuriously t =>
      match s.producers t with
      | .compareSize value oldSize => some (s.compareSize t value oldSize true)
      | _ => none
  | .pop => if s.subSize then none else s.pop
  | .subtract =>
      if s.subSize then
        some
          { s with
            queue := { s.queue with size := (s.queue.size + (WORD - 1)) % WORD }
            subSize := false }
      else none

def create (maxSize node : ℕ) : MpscSystem T where
  queue := .create maxSize node

/-- What `pop` would load now: the link of the node in front. -/
def nextInFront (s : MpscSystem T) : Option ℕ :=
  (s.queue.heap s.queue.tail).bind (·.next)

end MpscSystem

/-! ## The pieces of the list -/

namespace MpscQueue

def nextOf (q : MpscQueue T) (node : ℕ) : Option ℕ :=
  (q.heap node).bind (·.next)

def dataOf (q : MpscQueue T) (node : ℕ) : Option T :=
  (q.heap node).bind (·.data)

variable {q : MpscQueue T} {node other : ℕ} {entry : Option (MpscNode T)}

@[simp] theorem heap_setNode_self : (q.setNode node entry).heap node = entry :=
  Function.update_self _ _ _

@[simp] theorem heap_setNode_other (h : other ≠ node) :
    (q.setNode node entry).heap other = q.heap other :=
  Function.update_of_ne h _ _

@[simp] theorem head_setNode : (q.setNode node entry).head = q.head := rfl

@[simp] theorem tail_setNode : (q.setNode node entry).tail = q.tail := rfl

@[simp] theorem nextOf_setNode_other (h : other ≠ node) :
    (q.setNode node entry).nextOf other = q.nextOf other := by
  rw [nextOf, heap_setNode_other h, nextOf]

@[simp] theorem dataOf_setNode_other (h : other ≠ node) :
    (q.setNode node entry).dataOf other = q.dataOf other := by
  rw [dataOf, heap_setNode_other h, dataOf]

end MpscQueue

/-! Neighbours in a list without repetitions. -/

section Neighbours

variable {l : List ℕ} {a b c : ℕ}

theorem neighbours_iff : [a, b] <:+: l ↔ ∃ i, l[i]? = some a ∧ l[i + 1]? = some b := by
  constructor
  · rintro ⟨before, after, rfl⟩
    exact ⟨before.length, by simp, by simp⟩
  · rintro ⟨i, ha, hb⟩
    obtain ⟨hi, rfl⟩ := List.getElem?_eq_some_iff.mp hb
    obtain ⟨hi', rfl⟩ := List.getElem?_eq_some_iff.mp ha
    refine ⟨l.take i, l.drop (i + 2), ?_⟩
    have hdrop := List.drop_eq_getElem_cons hi'
    rw [List.drop_eq_getElem_cons hi] at hdrop
    conv_rhs => rw [← List.take_append_drop i l, hdrop]
    simp

theorem neighbour_unique (hnodup : l.Nodup) (hb : [a, b] <:+: l) (hc : [a, c] <:+: l) : b = c := by
  obtain ⟨i, hia, hib⟩ := (neighbours_iff).mp hb
  obtain ⟨j, hja, hjc⟩ := (neighbours_iff).mp hc
  have hi : i < l.length := (List.getElem?_eq_some_iff.mp hia).1
  have hij : i = j := (List.getElem?_inj hi hnodup).mp (hia.trans hja.symm)
  rw [hij, hjc] at hib
  exact (Option.some.inj hib).symm

theorem neighbour_not_last (hnodup : l.Nodup) (hb : [a, b] <:+: l) : l.getLast? ≠ some a := by
  obtain ⟨i, hia, hib⟩ := (neighbours_iff).mp hb
  have hi : i + 1 < l.length := (List.getElem?_eq_some_iff.mp hib).1
  intro hlast
  rw [List.getLast?_eq_getElem?] at hlast
  have hij : i = l.length - 1 := (List.getElem?_inj (by omega) hnodup).mp (hia.trans hlast.symm)
  omega

theorem neighbour_mem (hb : [a, b] <:+: l) : a ∈ l ∧ b ∈ l :=
  ⟨hb.subset (by simp), hb.subset (by simp)⟩

end Neighbours

/-- The node that a producer has made and not yet linked. -/
def MpscPc.node : MpscPc T → Option ℕ
  | .exchange _ node _ => some node
  | .link _ node _ => some node
  | _ => none

namespace MpscSystem

/-- The nodes from the one in front to `head_`, in the order of the exchanges.
Two neighbours are linked, or one producer is about to link them. -/
structure Linked (nodes : List ℕ) (s : MpscSystem T) : Prop where
  nodup : (s.queue.tail :: nodes).Nodup
  head : (s.queue.tail :: nodes).getLast? = some s.queue.head
  alive : ∀ node ∈ s.queue.tail :: nodes, (s.queue.heap node).isSome = true
  stored : ∃ pending, s.exchanged = s.popped ++ pending ∧
    nodes.map s.queue.dataOf = pending.map some
  links : ∀ prev node, [prev, node] <:+: s.queue.tail :: nodes →
    s.queue.nextOf prev = some node ∨
      s.queue.nextOf prev = none ∧ ∃ t counted, s.producers t = .link prev node counted
  last : s.queue.nextOf s.queue.head = none
  exchanging : ∀ t value node counted, s.producers t = .exchange value node counted →
    node ∉ s.queue.tail :: nodes ∧ s.queue.heap node = some { data := some value }
  linking : ∀ t prev node counted, s.producers t = .link prev node counted →
    [prev, node] <:+: s.queue.tail :: nodes ∧ s.queue.nextOf prev = none
  distinct : ∀ t u node, (s.producers t).node = some node → (s.producers u).node = some node →
    t = u

section Steps

variable {nodes : List ℕ} {s : MpscSystem T}

theorem setPc_self (t : ℕ) (pc : MpscPc T) (s : MpscSystem T) : (s.setPc t pc).producers t = pc :=
  Function.update_self _ _ _

theorem setPc_other {t u : ℕ} (pc : MpscPc T) (s : MpscSystem T) (h : u ≠ t) :
    (s.setPc t pc).producers u = s.producers u :=
  Function.update_of_ne h _ _

theorem linked_create (maxSize node : ℕ) : Linked [] (create maxSize node : MpscSystem T) := by
  have hnext : (create maxSize node : MpscSystem T).queue.nextOf node = none := by
    simp [MpscQueue.nextOf, create, MpscQueue.create]
  refine ⟨by simp, rfl, ?_, ⟨[], rfl, rfl⟩, ?_, hnext, ?_, ?_, ?_⟩
  · intro other hother
    rw [List.mem_singleton] at hother
    rw [hother]
    simp [create, MpscQueue.create]
  · intro prev other hpair
    have hlength := hpair.length_le
    simp at hlength
  · intro t value other counted hpc
    cases hpc
  · intro t prev other counted hpc
    cases hpc
  · intro t u other hpc
    cases hpc

/-- A producer without a node goes on without one. -/
theorem Linked.setPc (h : Linked nodes s) {t : ℕ} {pc : MpscPc T}
    (hold : (s.producers t).node = none) (hpc : pc.node = none) :
    Linked nodes (s.setPc t pc) := by
  have hother : ∀ {u node}, ((s.setPc t pc).producers u).node = some node →
      (s.setPc t pc).producers u = s.producers u ∧ (s.producers u).node = some node := by
    intro u node hnode
    by_cases hu : u = t
    · rw [hu, setPc_self, hpc] at hnode
      cases hnode
    · rw [setPc_other pc s hu] at hnode ⊢
      exact ⟨rfl, hnode⟩
  refine ⟨h.nodup, h.head, h.alive, h.stored, ?_, h.last, ?_, ?_, ?_⟩
  · intro prev node hpair
    refine (h.links prev node hpair).imp_right fun ⟨hnext, u, counted, hu⟩ => ⟨hnext, u, counted, ?_⟩
    rw [setPc_other pc s ?_, hu]
    rintro rfl
    rw [hu] at hold
    cases hold
  · intro u value node counted hu
    have hnode : ((s.setPc t pc).producers u).node = some node := by
      rw [hu]
      rfl
    exact h.exchanging u value node counted ((hother hnode).1 ▸ hu)
  · intro u prev node counted hu
    have hnode : ((s.setPc t pc).producers u).node = some node := by
      rw [hu]
      rfl
    exact h.linking u prev node counted ((hother hnode).1 ▸ hu)
  · intro u v node hu hv
    exact h.distinct u v node (hother hu).2 (hother hv).2

/-- A node that a producer still has to link is there. -/
theorem Linked.node_alive (h : Linked nodes s) {t node : ℕ}
    (hnode : (s.producers t).node = some node) : (s.queue.heap node).isSome = true := by
  cases hpc : s.producers t with
  | exchange value other counted =>
      rw [hpc] at hnode
      cases hnode
      rw [(h.exchanging t value node counted hpc).2]
      rfl
  | link prev other counted =>
      rw [hpc] at hnode
      cases hnode
      exact h.alive node (neighbour_mem (h.linking t prev node counted hpc).1).2
  | _ =>
      rw [hpc] at hnode
      cases hnode

theorem Linked.newNode (h : Linked nodes s) {t node : ℕ} {value : T} {counted : Bool}
    (hpc : s.producers t = .allocate value counted) (hfree : s.queue.heap node = none) :
    Linked nodes
      { s.setPc t (.exchange value node counted) with
        queue := s.queue.setNode node (some { data := some value }) } := by
  have hnew : ∀ other ∈ s.queue.tail :: nodes, other ≠ node := by
    rintro other hother rfl
    have halive := h.alive other hother
    rw [hfree] at halive
    cases halive
  have howner : ∀ u, (s.producers u).node ≠ some node := by
    intro u hu
    have halive := h.node_alive hu
    rw [hfree] at halive
    cases halive
  have hhead : s.queue.head ≠ node := hnew _ (List.mem_of_getLast? h.head)
  obtain ⟨pending, hexchanged, hstored⟩ := h.stored
  refine ⟨h.nodup, h.head, ?_, ⟨pending, hexchanged, ?_⟩, ?_, ?_, ?_, ?_, ?_⟩
  · intro other hother
    dsimp only
    rw [MpscQueue.heap_setNode_other (hnew other hother)]
    exact h.alive other hother
  · rw [← hstored]
    apply List.map_congr_left
    intro other hother
    exact MpscQueue.dataOf_setNode_other (hnew other (List.mem_cons_of_mem _ hother))
  · intro prev other hpair
    dsimp only
    rw [MpscQueue.nextOf_setNode_other (hnew prev (neighbour_mem hpair).1)]
    refine (h.links prev other hpair).imp_right fun ⟨hnext, u, c, hu⟩ => ⟨hnext, u, c, ?_⟩
    rw [setPc_other _ s ?_, hu]
    rintro rfl
    rw [hpc] at hu
    cases hu
  · dsimp only
    rw [MpscQueue.head_setNode, MpscQueue.nextOf_setNode_other hhead]
    exact h.last
  · intro u v other c hu
    dsimp only at hu ⊢
    by_cases hut : u = t
    · rw [hut, setPc_self] at hu
      cases hu
      refine ⟨fun hmem => hnew _ hmem rfl, MpscQueue.heap_setNode_self⟩
    · rw [setPc_other _ s hut] at hu
      obtain ⟨hout, hheap⟩ := h.exchanging u v other c hu
      have hne : other ≠ node := by
        rintro rfl
        exact howner u (by rw [hu]; rfl)
      rw [MpscQueue.heap_setNode_other hne]
      exact ⟨hout, hheap⟩
  · intro u prev other c hu
    dsimp only at hu ⊢
    have hut : u ≠ t := by
      rintro rfl
      rw [setPc_self] at hu
      cases hu
    rw [setPc_other _ s hut] at hu
    obtain ⟨hpair, hnext⟩ := h.linking u prev other c hu
    rw [MpscQueue.nextOf_setNode_other (hnew prev (neighbour_mem hpair).1)]
    exact ⟨hpair, hnext⟩
  · intro u v other hu hv
    dsimp only at hu hv
    by_cases hut : u = t
    · by_cases hvt : v = t
      · rw [hut, hvt]
      · rw [hut, setPc_self] at hu
        cases hu
        rw [setPc_other _ s hvt] at hv
        exact absurd hv (howner v)
    · rw [setPc_other _ s hut] at hu
      by_cases hvt : v = t
      · rw [hvt, setPc_self] at hv
        cases hv
        exact absurd hu (howner u)
      · rw [setPc_other _ s hvt] at hv
        exact h.distinct u v other hu hv

theorem Linked.exchangeHead (h : Linked nodes s) {t node : ℕ} {value : T} {counted : Bool}
    (hpc : s.producers t = .exchange value node counted) :
    Linked (nodes ++ [node]) (s.exchangeHead t value node counted) := by
  obtain ⟨hout, hheap⟩ := h.exchanging t value node counted hpc
  have hnode : (s.producers t).node = some node := by
    rw [hpc]
    rfl
  have hsame : ∀ u, ((s.exchangeHead t value node counted).producers u).node =
      (s.producers u).node := by
    intro u
    by_cases hu : u = t
    · rw [hu, hnode]
      show ((s.setPc t _).producers t).node = some node
      rw [setPc_self]
      rfl
    · exact congrArg MpscPc.node (setPc_other _ s hu)
  obtain ⟨pending, hexchanged, hstored⟩ := h.stored
  refine ⟨?_, ?_, ?_, ⟨pending ++ [value], ?_, ?_⟩, ?_, ?_, ?_, ?_, ?_⟩
  · rw [← List.cons_append]
    exact List.nodup_append_comm.mp (List.nodup_cons.mpr ⟨hout, h.nodup⟩)
  · show (s.queue.tail :: (nodes ++ [node])).getLast? = some node
    rw [← List.cons_append, List.getLast?_concat]
  · intro other hother
    rw [← List.cons_append, List.mem_append, List.mem_singleton] at hother
    rcases hother with hother | rfl
    · exact h.alive other hother
    · exact h.node_alive hnode
  · show s.exchanged ++ [value] = s.popped ++ (pending ++ [value])
    rw [hexchanged, List.append_assoc]
  · have hvalue : s.queue.dataOf node = some value := by
      rw [MpscQueue.dataOf, hheap]
      rfl
    show (nodes ++ [node]).map s.queue.dataOf = _
    rw [List.map_append, List.map_append, hstored, List.map_singleton, hvalue]
    rfl
  · intro prev other hpair
    have hpair' : [prev, other] <:+: s.queue.tail :: nodes ++ [node] := hpair
    rcases List.infix_concat_iff.mp hpair' with hlast | hold
    · -- the new neighbours: the old head and the new node
      obtain ⟨front, hfront⟩ := hlast
      have hsplit : s.queue.tail :: nodes = front ++ [prev] ∧ node = other := by
        have heq : front ++ [prev] ++ [other] = s.queue.tail :: nodes ++ [node] := by
          rw [← hfront]
          simp
        obtain ⟨hchain, hnode⟩ := List.append_inj' heq rfl
        exact ⟨hchain.symm, (List.singleton_inj.mp hnode).symm⟩
      obtain ⟨hchain, rfl⟩ := hsplit
      have hprev : prev = s.queue.head := by
        have hhead := h.head
        rw [hchain, List.getLast?_concat] at hhead
        exact Option.some.inj hhead
      refine .inr ⟨?_, t, counted, ?_⟩
      · rw [hprev]
        exact h.last
      · rw [hprev]
        exact setPc_self t _ s
    · refine (h.links prev other hold).imp_right fun ⟨hnext, u, c, hu⟩ => ⟨hnext, u, c, ?_⟩
      refine (setPc_other _ s ?_).trans hu
      rintro rfl
      rw [hpc] at hu
      cases hu
  · show s.queue.nextOf node = none
    rw [MpscQueue.nextOf, hheap]
    rfl
  · intro u v other c hu
    have hut : u ≠ t := by
      rintro rfl
      cases (setPc_self u _ s).symm.trans hu
    have hold : s.producers u = _ := (setPc_other _ s hut).symm.trans hu
    obtain ⟨hother, hheap'⟩ := h.exchanging u v other c hold
    refine ⟨?_, hheap'⟩
    show other ∉ s.queue.tail :: (nodes ++ [node])
    rw [← List.cons_append, List.mem_append, List.mem_singleton]
    rintro (hmem | rfl)
    · exact hother hmem
    · exact hut (h.distinct u t other (by rw [hold]; rfl) hnode)
  · intro u prev other c hu
    by_cases hut : u = t
    · rw [hut] at hu
      cases (setPc_self t _ s).symm.trans hu
      refine ⟨?_, h.last⟩
      obtain ⟨front, hfront⟩ := List.getLast?_eq_some_iff.mp h.head
      show [s.queue.head, node] <:+: s.queue.tail :: (nodes ++ [node])
      refine ⟨front, [], ?_⟩
      rw [← List.cons_append, hfront]
      simp
    · have hold : s.producers u = _ := (setPc_other _ s hut).symm.trans hu
      obtain ⟨hpair, hnext⟩ := h.linking u prev other c hold
      refine ⟨?_, hnext⟩
      show [prev, other] <:+: s.queue.tail :: (nodes ++ [node])
      rw [← List.cons_append]
      exact hpair.trans (List.prefix_append _ _).isInfix
  · intro u v other hu hv
    exact h.distinct u v other (hsame u ▸ hu) (hsame v ▸ hv)

/-- The store of the link joins two pieces. -/
theorem Linked.storeNext (h : Linked nodes s) {t prev node : ℕ} {counted : Bool}
    (hpc : s.producers t = .link prev node counted) :
    ∃ s', s.storeNext t prev node counted = some s' ∧ Linked nodes s' := by
  obtain ⟨hhere, hopen⟩ := h.linking t prev node counted hpc
  obtain ⟨hprev, -⟩ := neighbour_mem hhere
  obtain ⟨entry, hentry⟩ := Option.isSome_iff_exists.mp (h.alive prev hprev)
  have hhead : s.queue.head ≠ prev := by
    intro heq
    exact neighbour_not_last h.nodup hhere (heq ▸ h.head)
  generalize hpc' : (if counted && decide (0 < s.queue.maxSize) then MpscPc.addSize
    else MpscPc.idle : MpscPc T) = pc
  have hidle : pc.node = none := by
    rw [← hpc']
    split <;> rfl
  obtain ⟨pending, hexchanged, hstored⟩ := h.stored
  have hkept : ∀ {u other}, ((s.setPc t pc).producers u).node = some other →
      (s.setPc t pc).producers u = s.producers u ∧ u ≠ t := by
    intro u other hnode
    by_cases hu : u = t
    · rw [hu, setPc_self, hidle] at hnode
      cases hnode
    · exact ⟨setPc_other pc s hu, hu⟩
  have hstore : s.storeNext t prev node counted = some
      { s.setPc t pc with
        queue := s.queue.setNode prev (some { entry with next := some node }) } := by
    rw [MpscSystem.storeNext, hentry]
    dsimp only
    rw [hpc']
  refine ⟨_, hstore, h.nodup, h.head, ?_, ⟨pending, hexchanged, ?_⟩, ?_, ?_, ?_, ?_, ?_⟩
  · intro other hother
    dsimp only
    by_cases hne : other = prev
    · rw [hne, MpscQueue.heap_setNode_self]
      rfl
    · rw [MpscQueue.heap_setNode_other hne]
      exact h.alive other hother
  · rw [← hstored]
    apply List.map_congr_left
    intro other _
    dsimp only
    by_cases hne : other = prev
    · rw [hne, MpscQueue.dataOf, MpscQueue.heap_setNode_self, MpscQueue.dataOf, hentry]
      rfl
    · exact MpscQueue.dataOf_setNode_other hne
  · intro a b hpair
    dsimp only
    by_cases ha : a = prev
    · left
      rw [ha] at hpair ⊢
      rw [neighbour_unique h.nodup hpair hhere, MpscQueue.nextOf, MpscQueue.heap_setNode_self]
      rfl
    · rw [MpscQueue.nextOf_setNode_other ha]
      refine (h.links a b hpair).imp_right fun ⟨hnext, u, c, hu⟩ => ⟨hnext, u, c, ?_⟩
      refine (setPc_other _ s ?_).trans hu
      rintro rfl
      rw [hpc] at hu
      cases hu
      exact ha rfl
  · dsimp only
    rw [MpscQueue.head_setNode, MpscQueue.nextOf_setNode_other hhead]
    exact h.last
  · intro u value other c hu
    dsimp only at hu
    have hnode : ((s.setPc t pc).producers u).node = some other := by
      rw [hu]
      rfl
    obtain ⟨hsame, -⟩ := hkept hnode
    obtain ⟨hout, hheap⟩ := h.exchanging u value other c (hsame ▸ hu)
    have hne : other ≠ prev := by
      rintro rfl
      exact hout hprev
    dsimp only
    rw [MpscQueue.heap_setNode_other hne]
    exact ⟨hout, hheap⟩
  · intro u a b c hu
    dsimp only at hu
    have hnode : ((s.setPc t pc).producers u).node = some b := by
      rw [hu]
      rfl
    obtain ⟨hsame, hut⟩ := hkept hnode
    have hold : s.producers u = .link a b c := hsame ▸ hu
    obtain ⟨hpair, hnext⟩ := h.linking u a b c hold
    have hne : a ≠ prev := by
      rintro rfl
      have hb := neighbour_unique h.nodup hpair hhere
      rw [hb] at hold
      exact hut (h.distinct u t node (by rw [hold]; rfl) (by rw [hpc]; rfl))
    dsimp only
    rw [MpscQueue.nextOf_setNode_other hne]
    exact ⟨hpair, hnext⟩
  · intro u v other hu hv
    obtain ⟨hsame, -⟩ := hkept hu
    obtain ⟨hsame', -⟩ := hkept hv
    exact h.distinct u v other (hsame ▸ hu) (hsame' ▸ hv)

theorem Linked.setSize (h : Linked nodes s) (size : ℕ) (subSize : Bool) :
    Linked nodes { s with queue := { s.queue with size }, subSize } :=
  ⟨h.nodup, h.head, h.alive, h.stored, h.links, h.last, h.exchanging, h.linking, h.distinct⟩

/-- The next value in the order of the exchanges is in a node that its producer
has not linked yet. -/
def NextUnlinked (s : MpscSystem T) : Prop :=
  ∃ t node counted value, s.producers t = .link s.queue.tail node counted ∧
    s.queue.dataOf node = some value ∧ s.exchanged[s.popped.length]? = some value

/-- When there is nothing to load, everything has been popped or the next node
is not linked. -/
theorem Linked.nextInFront_eq_none (h : Linked nodes s) :
    s.nextInFront = none ↔ s.popped = s.exchanged ∨ s.NextUnlinked := by
  obtain ⟨pending, hexchanged, hstored⟩ := h.stored
  show s.queue.nextOf s.queue.tail = none ↔ _
  cases nodes with
  | nil =>
      have hpending : pending = [] := by
        simpa using hstored.symm
      have hhead : s.queue.tail = s.queue.head := by
        simpa using h.head
      rw [hpending, List.append_nil] at hexchanged
      exact iff_of_true (hhead ▸ h.last) (.inl hexchanged.symm)
  | cons node nodes =>
      obtain ⟨value, pending', rfl, hvalue⟩ : ∃ value pending', pending = value :: pending' ∧
          s.queue.dataOf node = some value := by
        cases pending with
        | nil => cases hstored
        | cons value pending' =>
            injection hstored with hvalue
            exact ⟨value, pending', rfl, hvalue⟩
      have hnext : s.exchanged[s.popped.length]? = some value := by
        rw [hexchanged]
        simp
      have hfront : [s.queue.tail, node] <:+: s.queue.tail :: node :: nodes :=
        ⟨[], nodes, rfl⟩
      constructor
      · intro hnone
        rcases h.links _ _ hfront with hlinked | ⟨-, t, counted, ht⟩
        · rw [hnone] at hlinked
          cases hlinked
        · exact .inr ⟨t, node, counted, value, ht, hvalue, hnext⟩
      · rintro (hall | ⟨t, other, counted, v, ht, -, -⟩)
        · have hlength := congrArg List.length (hall.trans hexchanged)
          simp at hlength
        · exact (h.linking t _ other counted ht).2

/-- A pop with something to load takes the next value of the exchanges. -/
theorem Linked.pop_some (h : Linked nodes s) {next : ℕ} (hnext : s.nextInFront = some next) :
    ∃ value nodes' s', s.pop = some s' ∧ s.exchanged[s.popped.length]? = some value ∧
      s'.popped = s.popped ++ [value] ∧ Linked nodes' s' := by
  obtain ⟨pending, hexchanged, hstored⟩ := h.stored
  have hlinked : s.queue.nextOf s.queue.tail = some next := hnext
  cases nodes with
  | nil =>
      have hhead : s.queue.tail = s.queue.head := by
        simpa using h.head
      rw [hhead, h.last] at hlinked
      cases hlinked
  | cons node nodes =>
      have hfront : [s.queue.tail, node] <:+: s.queue.tail :: node :: nodes :=
        ⟨[], nodes, rfl⟩
      obtain rfl : node = next := by
        rcases h.links _ _ hfront with hnode | ⟨hnone, -⟩
        · exact Option.some.inj (hnode.symm.trans hlinked)
        · cases hnone.symm.trans hlinked
      obtain ⟨value, pending', rfl, hvalue, hrest⟩ : ∃ value pending',
          pending = value :: pending' ∧ s.queue.dataOf node = some value ∧
            nodes.map s.queue.dataOf = pending'.map some := by
        cases pending with
        | nil => cases hstored
        | cons value pending' =>
            injection hstored with hvalue hrest
            exact ⟨value, pending', rfl, hvalue, hrest⟩
      obtain ⟨hout, hnodup⟩ := List.nodup_cons.mp h.nodup
      obtain ⟨hnode, -⟩ := List.nodup_cons.mp hnodup
      obtain ⟨front, hfrontEntry⟩ := Option.isSome_iff_exists.mp (h.alive s.queue.tail (by simp))
      obtain ⟨entry, hentry⟩ := Option.isSome_iff_exists.mp (h.alive node (by simp))
      have hdata : entry.data = some value := by
        rw [MpscQueue.dataOf, hentry] at hvalue
        exact hvalue
      have hlink : front.next = some node := by
        rw [MpscQueue.nextOf, hfrontEntry] at hlinked
        exact hlinked
      generalize hqueue : (s.queue.setNode node (some { next := entry.next, data := none })).setNode
        s.queue.tail none = q
      have hpop : s.pop = some
          { s with
            queue := { q with tail := node }
            subSize := 0 < s.queue.maxSize
            popped := s.popped ++ [value] } := by
        obtain ⟨behind, data⟩ := entry
        cases hdata
        rw [MpscSystem.pop, hfrontEntry]
        dsimp only
        rw [hlink]
        dsimp only
        rw [hentry]
        dsimp only
        rw [hqueue]
      have hheap : ∀ other, other ≠ node → other ≠ s.queue.tail →
          q.heap other = s.queue.heap other := by
        intro other hne hne'
        rw [← hqueue, MpscQueue.heap_setNode_other hne', MpscQueue.heap_setNode_other hne]
      have hnodeNe : node ≠ s.queue.tail := fun heq => hout (by simp [heq])
      have hmoved : q.heap node = some { next := entry.next, data := none } := by
        rw [← hqueue, MpscQueue.heap_setNode_other hnodeNe, MpscQueue.heap_setNode_self]
      have hnextOf : ∀ other, other ≠ s.queue.tail → q.nextOf other = s.queue.nextOf other := by
        intro other hne
        by_cases heq : other = node
        · rw [heq, MpscQueue.nextOf, hmoved, MpscQueue.nextOf, hentry]
          rfl
        · rw [MpscQueue.nextOf, hheap other heq hne, MpscQueue.nextOf]
      have hhead : q.head = s.queue.head := by
        rw [← hqueue]
        rfl
      have hrest' : ∀ other ∈ node :: nodes, other ≠ s.queue.tail := by
        rintro other hother rfl
        exact hout hother
      refine ⟨value, nodes, _, hpop, by rw [hexchanged]; simp, rfl, hnodup, ?_, ?_,
        ⟨pending', ?_, ?_⟩, ?_, ?_, ?_, ?_, h.distinct⟩
      · show (node :: nodes).getLast? = some q.head
        rw [hhead, ← h.head, List.getLast?_cons_cons]
      · intro other hother
        show (q.heap other).isSome = true
        by_cases heq : other = node
        · rw [heq, hmoved]
          rfl
        · rw [hheap other heq (hrest' other hother)]
          exact h.alive other (List.mem_cons_of_mem _ hother)
      · show s.exchanged = s.popped ++ [value] ++ pending'
        rw [hexchanged]
        simp
      · show nodes.map q.dataOf = pending'.map some
        rw [← hrest]
        apply List.map_congr_left
        intro other hother
        have hne : other ≠ node := by
          rintro rfl
          exact hnode hother
        rw [MpscQueue.dataOf, hheap other hne (hrest' other (List.mem_cons_of_mem _ hother)),
          MpscQueue.dataOf]
      · intro a b hpair
        show q.nextOf a = some b ∨ q.nextOf a = none ∧ _
        rw [hnextOf a (hrest' a (neighbour_mem hpair).1)]
        exact h.links a b (hpair.trans (List.suffix_cons _ _).isInfix)
      · show q.nextOf q.head = none
        rw [hhead, hnextOf _ (hrest' _ ?_)]
        · exact h.last
        · have hlast := h.head
          rw [List.getLast?_cons_cons] at hlast
          exact List.mem_of_getLast? hlast
      · intro t v other counted ht
        obtain ⟨hother, hheap'⟩ := h.exchanging t v other counted ht
        refine ⟨fun hmem => hother (List.mem_cons_of_mem _ hmem), ?_⟩
        show q.heap other = _
        rw [hheap other, hheap']
        · rintro rfl
          exact hother (by simp)
        · rintro rfl
          exact hother (by simp)
      · intro t a b counted ht
        obtain ⟨hpair, hopen⟩ := h.linking t a b counted ht
        have hne : a ≠ s.queue.tail := by
          rintro rfl
          cases hopen.symm.trans hlinked
        refine ⟨?_, ?_⟩
        · rcases List.infix_cons_iff.mp hpair with hprefix | hlater
          · exact absurd (List.cons_prefix_cons.mp hprefix).1 hne
          · exact hlater
        · show q.nextOf a = none
          rw [hnextOf a hne]
          exact hopen

theorem pop_none (hnext : s.nextInFront = none) (hfront : (s.queue.heap s.queue.tail).isSome) :
    s.pop = some s := by
  obtain ⟨front, hentry⟩ := Option.isSome_iff_exists.mp hfront
  have hlink : front.next = none := by
    rw [nextInFront, hentry] at hnext
    exact hnext
  rw [MpscSystem.pop, hentry]
  dsimp only
  rw [hlink]

theorem Linked.compareSize (h : Linked nodes s) {t oldSize : ℕ} {value : T}
    (hold : (s.producers t).node = none) (spurious : Bool) :
    Linked nodes (s.compareSize t value oldSize spurious) := by
  unfold MpscSystem.compareSize
  split
  · exact h.setPc hold rfl
  split
  · exact (h.setPc hold rfl).setSize _ _
  · exact h.setPc hold rfl

theorem Linked.advance (h : Linked nodes s) {s' : MpscSystem T} {t : ℕ}
    (hstep : s.advance t = some s') : ∃ nodes', Linked nodes' s' := by
  unfold MpscSystem.advance at hstep
  cases hpc : s.producers t with
  | idle =>
      rw [hpc] at hstep
      cases hstep
  | loadSize value =>
      rw [hpc] at hstep
      cases hstep
      exact ⟨nodes, h.setPc (by rw [hpc]; rfl) rfl⟩
  | compareSize value oldSize =>
      rw [hpc] at hstep
      cases hstep
      exact ⟨nodes, h.compareSize (by rw [hpc]; rfl) false⟩
  | allocate value counted =>
      rw [hpc] at hstep
      cases hstep
  | exchange value node counted =>
      rw [hpc] at hstep
      cases hstep
      exact ⟨nodes ++ [node], h.exchangeHead hpc⟩
  | link prev node counted =>
      rw [hpc] at hstep
      obtain ⟨next, hnext, hlinked⟩ := h.storeNext hpc
      cases hstep.symm.trans hnext
      exact ⟨nodes, hlinked⟩
  | addSize =>
      rw [hpc] at hstep
      cases hstep
      exact ⟨nodes, (h.setPc (by rw [hpc]; rfl) rfl).setSize _ _⟩

/-- One step of the queue, whoever takes it. -/
theorem Linked.step (h : Linked nodes s) {s' : MpscSystem T} {label : MpscLabel T}
    (hstep : s.step label = some s') : ∃ nodes', Linked nodes' s' := by
  cases label with
  | push t value =>
      unfold MpscSystem.step at hstep
      dsimp only at hstep
      split at hstep
      next hpc =>
        cases hstep
        exact ⟨nodes, h.setPc (by rw [hpc]; rfl) rfl⟩
      · cases hstep
  | tryPush t value =>
      unfold MpscSystem.step at hstep
      dsimp only at hstep
      split at hstep
      next hpc =>
        cases hstep
        refine ⟨nodes, h.setPc (by rw [hpc]; rfl) ?_⟩
        split <;> rfl
      · cases hstep
  | newNode t node =>
      unfold MpscSystem.step at hstep
      dsimp only at hstep
      split at hstep
      next value counted hpc hfree =>
        cases hstep
        exact ⟨nodes, h.newNode hpc hfree⟩
      · cases hstep
  | advance t => exact h.advance hstep
  | failSpuriously t =>
      unfold MpscSystem.step at hstep
      dsimp only at hstep
      split at hstep
      next value oldSize hpc =>
        cases hstep
        exact ⟨nodes, h.compareSize (by rw [hpc]; rfl) true⟩
      · cases hstep
  | pop =>
      unfold MpscSystem.step at hstep
      dsimp only at hstep
      split at hstep
      · cases hstep
      cases hnext : s.nextInFront with
      | none =>
          cases hstep.symm.trans (pop_none hnext (h.alive _ (by simp)))
          exact ⟨nodes, h⟩
      | some next =>
          obtain ⟨value, nodes', next', hpop, -, -, hlinked⟩ := h.pop_some hnext
          cases hstep.symm.trans hpop
          exact ⟨nodes', hlinked⟩
  | subtract =>
      unfold MpscSystem.step at hstep
      dsimp only at hstep
      split at hstep
      · cases hstep
        exact ⟨nodes, h.setSize _ _⟩
      · cases hstep

/-- Every reachable state is in pieces of this form. -/
theorem exec_linked {maxSize node : ℕ} {labels : List (MpscLabel T)} {s : MpscSystem T}
    (hexec : exec step (create maxSize node) labels = some s) : ∃ nodes, Linked nodes s := by
  have hkeep : ∀ (s : MpscSystem T) label s', (∃ nodes, Linked nodes s) →
      s.step label = some s' → ∃ nodes, Linked nodes s' := by
    rintro s label s' ⟨nodes, h⟩ hstep
    exact h.step hstep
  exact exec_invariant hkeep ⟨[], linked_create maxSize node⟩ hexec

end Steps

/-- In every state that the threads reach: the popped values are the first ones
in the order of the exchanges; a pop that finds a link takes the next value of
that order; a pop finds none exactly when all values have been popped or the
producer of the next one has not linked it yet; and no thread is about to use a
node that has been deleted. -/
theorem exec_poppedInOrder {maxSize node : ℕ} {labels : List (MpscLabel T)} {s : MpscSystem T}
    (hexec : exec step (create maxSize node) labels = some s) :
    s.popped <+: s.exchanged ∧
      (∀ next, s.nextInFront = some next → ∃ value s', s.pop = some s' ∧
        s.exchanged[s.popped.length]? = some value ∧ s'.popped = s.popped ++ [value]) ∧
      (s.nextInFront = none → s.pop = some s ∧ (s.popped = s.exchanged ∨ s.NextUnlinked)) ∧
      (s.popped = s.exchanged ∨ s.NextUnlinked → s.nextInFront = none) ∧
      ∀ t prev node counted, s.producers t = .link prev node counted →
        (s.storeNext t prev node counted).isSome = true := by
  obtain ⟨nodes, h⟩ := exec_linked hexec
  obtain ⟨pending, hexchanged, -⟩ := h.stored
  refine ⟨⟨pending, hexchanged.symm⟩, ?_, ?_, h.nextInFront_eq_none.mpr, ?_⟩
  · intro next hnext
    obtain ⟨value, nodes', s', hpop, hvalue, hpopped, -⟩ := h.pop_some hnext
    exact ⟨value, s', hpop, hvalue, hpopped⟩
  · intro hnone
    exact ⟨pop_none hnone (h.alive _ (by simp)), h.nextInFront_eq_none.mp hnone⟩
  · intro t prev node counted ht
    obtain ⟨s', hs', -⟩ := h.storeNext ht
    rw [hs']
    rfl

/-- The second of two producers links its node first; the consumer sees nothing
until the first one has linked, and the node in front is then used again. -/
def twoProducers : List (MpscLabel ℕ) :=
  [.push 1 10, .newNode 1 1, .push 2 20, .newNode 2 2, .advance 1, .advance 2, .advance 2, .pop,
    .advance 1, .pop, .push 1 30, .newNode 1 0, .advance 1]

theorem exec_poppedInOrder_twoProducers :
    ∃ s : MpscSystem ℕ, exec step (create 0 0) twoProducers = some s ∧ s.popped = [10] ∧
      s.exchanged = [10, 20, 30] ∧ s.popped <+: s.exchanged := by
  obtain ⟨s, hs⟩ : ∃ s : MpscSystem ℕ, exec step (create 0 0) twoProducers = some s := ⟨_, rfl⟩
  have hlists : (exec step (create 0 0) twoProducers).map (fun s => (s.popped, s.exchanged)) =
      some ([10], [10, 20, 30]) := by
    decide
  rw [hs] at hlists
  injection hlists with hlists
  injection hlists with hpopped hexchanged
  exact ⟨s, hs, hpopped, hexchanged, (exec_poppedInOrder hs).1⟩

end MpscSystem

end Concurrent
end Katana
