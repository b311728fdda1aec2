import Milp.Proofs.Search.Improvement
import Milp.Proofs.Search.Outcome

/-!
# The open nodes

A search goes depth first, and this shows in its open nodes. The first of them is the next one, or the
one in hand, and no other one is deeper; below it the depths grow smaller from node to node
(`Node.Towers`). So never more nodes wait than the node in hand is deep. No number is given to two nodes,
and a node that has left the open ones does not come back (`Turn.Follows`).

All this follows from what a step can do to the node that it takes up (`Plan.Outcome`):

* `Plan.drive_shaped` — every run keeps the shape of the open nodes (`Turn.Shaped`), whatever the callback
  does.
* `Plan.drive_offers` — a node is offered at its heuristic point first, then at its branching point, and
  at neither of them again.
* `Plan.open_nodes` — what this says of every search from its start.
-/

namespace Milp

variable {α : Type}

/-! ### Depths -/

/-- Whether the open nodes have the depths of a depth-first search: behind the first node, none is the
root or deeper than the first one, and each is deeper than those that follow. -/
def Node.Towers : List (Node α) → Prop
  | [] => True
  | n :: rest => (∀ m ∈ rest, 1 ≤ m.depth ∧ m.depth ≤ n.depth) ∧
      rest.Pairwise fun a b => b.depth < a.depth

/-- Whether the depth of a node is the number of decisions that it carries. -/
def Node.Deep (n : Node α) : Prop := n.depth = n.changes.length + n.rows.length

namespace Node

variable {n a b : Node α} {rest : List (Node α)}

/-- Without their first one the nodes are still a tower. -/
theorem Towers.tail (h : Towers (n :: rest)) : Towers rest := by
  cases rest with
  | nil => trivial
  | cons m rest =>
    obtain ⟨bounded, decreasing⟩ := h
    obtain ⟨below, decreasing⟩ := List.pairwise_cons.mp decreasing
    exact ⟨fun k hk => ⟨(bounded k (List.mem_cons_of_mem m hk)).1, (below k hk).le⟩, decreasing⟩

/-- Two children of the first node are a tower on the others. -/
theorem Towers.split (h : Towers (n :: rest)) (ha : a.Extends n) (hb : b.Extends n) :
    Towers (a :: b :: rest) := by
  obtain ⟨bounded, decreasing⟩ := h
  have below : ∀ m ∈ rest, m.depth < b.depth := by
    intro m hm
    rw [hb.depth]
    exact Nat.lt_succ_of_le (bounded m hm).2
  refine ⟨fun m hm => ?_, List.pairwise_cons.mpr ⟨below, decreasing⟩⟩
  rw [ha.depth]
  rcases List.mem_cons.mp hm with rfl | hm
  · rw [hb.depth]
    omega
  · have := bounded m hm
    omega

/-- There are no more nodes of decreasing depths than the depths that are left for them. -/
theorem length_le_of_decreasing {l : List (Node α)} {d : Nat}
    (bounded : ∀ m ∈ l, 1 ≤ m.depth ∧ m.depth ≤ d)
    (decreasing : l.Pairwise fun a b => b.depth < a.depth) : l.length ≤ d := by
  induction l generalizing d with
  | nil => exact d.zero_le
  | cons n rest ih =>
    obtain ⟨below, decreasing⟩ := List.pairwise_cons.mp decreasing
    have first := bounded n List.mem_cons_self
    have others : rest.length ≤ n.depth - 1 := by
      refine ih (fun m hm => ⟨(bounded m (List.mem_cons_of_mem n hm)).1, ?_⟩) decreasing
      exact Nat.le_sub_one_of_lt (below m hm)
    rw [List.length_cons]
    omega

/-- Not more nodes wait than the first one is deep. -/
theorem Towers.length_le (h : Towers (n :: rest)) : rest.length ≤ n.depth :=
  length_le_of_decreasing h.1 h.2

/-- A child carries as many decisions as it is deep, if its parent does. -/
theorem Extends.deep (h : a.Extends n) (deep : n.Deep) : a.Deep := by
  rw [Deep, h.depth, h.decisions, deep]

end Node

/-! ### The shape of the open nodes -/

/-- The nodes that a search has before it: the one in hand and the open ones. -/
def Turn.nodesLeft : Turn α → List (Node α)
  | .ask d => d.focus.node :: d.search.stack
  | turn => turn.search.stack

/-- The shape of the nodes that a search has before it, after so many branchings: their numbers are
different and at most `1 + 2 * branchings`, the last one that was given out; every node carries as many
decisions as it is deep; and the depths are those of a depth-first search. -/
structure Node.Shaped (branchings : Nat) (s : Search α) (nodes : List (Node α)) : Prop where
  distinct : (nodes.map (·.number)).Nodup
  numbers : ∀ n ∈ nodes, n.number ≤ s.lastNumber
  lastNumber : s.lastNumber = 1 + 2 * branchings
  counted : s.stats.branchings = countUp 0 branchings
  deep : ∀ n ∈ nodes, n.Deep
  towers : Node.Towers nodes

/-- Whether the nodes of a search at a turn have this shape. -/
def Turn.Shaped (branchings : Nat) (turn : Turn α) : Prop :=
  Node.Shaped branchings turn.search turn.nodesLeft

/-- Whether one turn comes after another one in a run: the numbers given out in between are new, so a
node with an old number is one of the old nodes. -/
structure Turn.Follows (later earlier : Turn α) : Prop where
  lastNumber : earlier.search.lastNumber ≤ later.search.lastNumber
  nodes : ∀ n ∈ later.nodesLeft, n.number ≤ earlier.search.lastNumber → n ∈ earlier.nodesLeft

/-- Following is transitive. -/
theorem Turn.Follows.trans {t t' t'' : Turn α} (h' : t''.Follows t') (h : t'.Follows t) :
    t''.Follows t where
  lastNumber := h.lastNumber.trans h'.lastNumber
  nodes n hn old := h.nodes n (h'.nodes n hn (old.trans h.lastNumber)) old

namespace Node.Shaped

variable {b : Nat} {s s' : Search α} {n : Node α} {nodes : List (Node α)}

/-- What is known of the nodes of a search is known of those that it still has. -/
theorem same (h : Shaped b s nodes) (last : s'.lastNumber = s.lastNumber)
    (branchings : s'.stats.branchings = s.stats.branchings) : Shaped b s' nodes where
  distinct := h.distinct
  numbers n hn := (h.numbers n hn).trans last.ge
  lastNumber := last.trans h.lastNumber
  counted := branchings.trans h.counted
  deep := h.deep
  towers := h.towers

/-- The first node is done with. -/
theorem tail (h : Shaped b s (n :: nodes)) : Shaped b s nodes where
  distinct := (List.nodup_cons.mp h.distinct).2
  numbers m hm := h.numbers m (List.mem_cons_of_mem n hm)
  lastNumber := h.lastNumber
  counted := h.counted
  deep m hm := h.deep m (List.mem_cons_of_mem n hm)
  towers := h.towers.tail

/-- The first node is split. -/
theorem split (h : Shaped b s (n :: s.stack)) {x y : Node α} (splits : s.Splits n x y s') :
    Shaped (b + 1) s' (x :: y :: s.stack) := by
  have deep := h.deep n List.mem_cons_self
  have old (m : Node α) (hm : m ∈ s.stack) : m.number ≤ s.lastNumber :=
    h.numbers m (List.mem_cons_of_mem n hm)
  have fresh (i : Nat) (above : s.lastNumber < i) : i ∉ s.stack.map (·.number) := fun listed => by
    obtain ⟨m, hm, rfl⟩ := List.mem_map.mp listed
    exact absurd (old m hm) (not_le.mpr above)
  have numbers := splits.numbers
  refine ⟨?_, fun m hm => ?_, ?_, ?_, fun m hm => ?_, h.towers.split splits.first splits.second⟩
  · have apart : x.number ≠ y.number := by omega
    rw [List.map_cons, List.map_cons, List.nodup_cons, List.nodup_cons, List.mem_cons, not_or]
    exact ⟨⟨apart, fresh _ (by omega)⟩, fresh _ (by omega), h.tail.distinct⟩
  · rw [splits.lastNumber]
    rcases List.mem_cons.mp hm with rfl | hm
    · omega
    · rcases List.mem_cons.mp hm with rfl | hm
      · omega
      · have := old m hm
        omega
  · rw [splits.lastNumber, h.lastNumber]
    omega
  · rw [splits.branchings, h.counted, countUp_countUp]
  · rcases List.mem_cons.mp hm with rfl | hm
    · exact splits.first.deep deep
    · rcases List.mem_cons.mp hm with rfl | hm
      · exact splits.second.deep deep
      · exact h.deep m (List.mem_cons_of_mem n hm)

end Node.Shaped

namespace Plan

variable {plan : Plan α} {s : Search α} {n : Node α} {turn : Turn α} {b : Nat}

/-- The shape stays, and no number comes back, where the nodes that are left are among those that there
were and nothing was split. -/
theorem shaped_of_same {nodes left : List (Node α)} (h : Node.Shaped b s nodes)
    (among : ∀ m ∈ nodes, m ∈ left) (nodes_eq : turn.nodesLeft = nodes)
    (last : turn.search.lastNumber = s.lastNumber)
    (branchings : turn.search.stats.branchings = s.stats.branchings) :
    ∃ b' ≤ b + 1, turn.Shaped b' ∧ s.lastNumber ≤ turn.search.lastNumber ∧
      ∀ m ∈ turn.nodesLeft, m.number ≤ s.lastNumber → m ∈ left := by
  refine ⟨b, b.le_succ, ?_, last.ge, fun m hm _ => among m (nodes_eq ▸ hm)⟩
  rw [Turn.Shaped, nodes_eq]
  exact h.same last branchings

/-- Whatever becomes of the node in hand, the shape stays and no number comes back. -/
theorem Outcome.shaped (outcome : Outcome s n turn) (h : Node.Shaped b s (n :: s.stack)) :
    ∃ b' ≤ b + 1, turn.Shaped b' ∧ s.lastNumber ≤ turn.search.lastNumber ∧
      ∀ m ∈ turn.nodesLeft, m.number ≤ s.lastNumber → m ∈ n :: s.stack := by
  have behind (m : Node α) (hm : m ∈ s.stack) : m ∈ n :: s.stack := List.mem_cons_of_mem n hm
  cases outcome with
  | dropped same => exact shaped_of_same h.tail behind same.stack same.lastNumber same.branchings
  | @split s' x y splits =>
    refine ⟨b + 1, le_rfl, ?_, ?_, fun m hm old => ?_⟩
    · show Node.Shaped (b + 1) s' s'.stack
      rw [splits.stack]
      exact h.split splits
    · exact (Nat.le_add_right _ 2).trans splits.lastNumber.ge
    · have listed : m ∈ x :: y :: s.stack := splits.stack ▸ hm
      have numbers := splits.numbers
      rcases List.mem_cons.mp listed with rfl | listed
      · omega
      · rcases List.mem_cons.mp listed with rfl | listed
        · omega
        · exact behind m listed
  | @asked d node_eq same =>
    have nodes_eq : (Turn.ask d).nodesLeft = n :: s.stack := by
      rw [Turn.nodesLeft, node_eq, same.stack]
    exact shaped_of_same h (fun _ => id) nodes_eq same.lastNumber same.branchings
  | stopped same => exact shaped_of_same h (fun _ => id) same.stack same.lastNumber same.branchings
  | ended same => exact shaped_of_same h.tail behind same.stack same.lastNumber same.branchings
  | failed same => exact shaped_of_same h.tail behind same.stack same.lastNumber same.branchings

end Plan

/-! ### Runs -/

section Runs

variable [Scalar α] {plan : Plan α} {d e : Decision α} {turn : Turn α} {b : Nat}

namespace Plan

variable {κ : Type} {handler : Handler α κ}

/-- One more turn keeps the shape, with at most one more branching, and no number comes back. -/
theorem drive_one_shaped (confined : handler.Confined) (h : turn.Shaped b) (k : κ) :
    (plan.drive handler 1 turn k).1.Follows turn ∧
      ∃ b' ≤ b + 1, (plan.drive handler 1 turn k).1.Shaped b' := by
  have refl : turn.Follows turn := ⟨le_rfl, fun _ hn _ => hn⟩
  cases turn with
  | proceed s =>
    show (plan.advance s).Follows _ ∧ ∃ b' ≤ b + 1, (plan.advance s).Shaped b'
    cases stack_eq : s.stack with
    | nil =>
      obtain ⟨status, dual, s', ended, same⟩ := plan.advance_nil stack_eq
      rw [ended]
      have last : s'.lastNumber = s.lastNumber := same.lastNumber
      refine ⟨⟨last.ge, fun m hm _ => ?_⟩, b, b.le_succ, ?_⟩
      · show m ∈ s.stack
        rw [← same.stack]
        exact hm
      · show Node.Shaped b s' s'.stack
        rw [same.stack]
        exact Node.Shaped.same h last same.branchings
    | cons n rest =>
      have taken : Node.Shaped b { s with stack := rest } (n :: rest) := by
        have shaped : Node.Shaped b s s.stack := h
        rw [stack_eq] at shaped
        exact shaped.same rfl rfl
      obtain ⟨b', le, shaped, last, among⟩ := (plan.advance_outcome stack_eq).shaped taken
      refine ⟨⟨last, fun m hm old => ?_⟩, b', le, shaped⟩
      show m ∈ s.stack
      rw [stack_eq]
      exact among m hm old
  | ask d =>
    have reaches := confined plan d k
    generalize handled : handler plan d k = outcome at reaches
    obtain ⟨reply, e, k'⟩ := outcome
    have next : (plan.drive handler 1 (.ask d) k).1 = plan.resolve e reply := by
      simp only [drive, handled]
    have same := reaches.sameNodes
    have focus : e.focus = d.focus := reaches.samePoint.focus
    have seen : Node.Shaped b e.search (e.focus.node :: e.search.stack) := by
      rw [focus, same.stack]
      exact Node.Shaped.same h same.lastNumber same.branchings
    obtain ⟨b', le, shaped, last, among⟩ := (resolve_outcome plan e reply).shaped seen
    rw [next]
    rw [same.lastNumber] at last among
    rw [focus, same.stack] at among
    exact ⟨⟨last, among⟩, b', le, shaped⟩
  | ended status dual s => exact ⟨refl, b, b.le_succ, h⟩
  | failed cause s => exact ⟨refl, b, b.le_succ, h⟩

/-- A run keeps the shape, with at most one more branching for each turn. -/
theorem drive_shaped (plan : Plan α) (confined : handler.Confined) (h : turn.Shaped b) (k : κ)
    (turns : Nat) :
    ∃ b' ≤ b + turns, (plan.drive handler turns turn k).1.Shaped b' := by
  induction turns with
  | zero => exact ⟨b, le_rfl, h⟩
  | succ turns ih =>
    obtain ⟨b', le, shaped⟩ := ih
    rw [drive_add rfl 1]
    obtain ⟨-, b'', le', shaped'⟩ := drive_one_shaped confined shaped _
    exact ⟨b'', by omega, shaped'⟩

/-- No number comes back in a run. -/
theorem drive_follows (plan : Plan α) (confined : handler.Confined) (h : turn.Shaped b) (k : κ)
    (first later : Nat) :
    (plan.drive handler (first + later) turn k).1.Follows (plan.drive handler first turn k).1 := by
  induction later with
  | zero => exact ⟨le_rfl, fun _ hn _ => hn⟩
  | succ later ih =>
    obtain ⟨b', -, shaped⟩ := plan.drive_shaped confined h k (first + later)
    rw [← add_assoc, drive_add rfl 1]
    exact (drive_one_shaped confined shaped _).1.trans ih

/-! ### Offers -/

/-- Behind a decision point the search is over, or it is done with the node, or it asks at the branching
point of the node where it has asked at the heuristic point. -/
theorem drive_one_behind (confined : handler.Confined) (h : (Turn.ask d).Shaped b) (k : κ) :
    ((plan.drive handler 1 (.ask d) k).1.IsOver ∨
      ∀ n ∈ (plan.drive handler 1 (.ask d) k).1.nodesLeft, n.number ≠ d.focus.node.number) ∨
    ∃ e, (plan.drive handler 1 (.ask d) k).1 = .ask e ∧
      e.focus.node.number = d.focus.node.number ∧ d.point = .heuristic ∧ e.point = .branching := by
  have reaches := confined plan d k
  generalize handled : handler plan d k = outcome at reaches
  obtain ⟨reply, e, k'⟩ := outcome
  have next : (plan.drive handler 1 (.ask d) k).1 = plan.resolve e reply := by
    simp only [drive, handled]
  have same := reaches.sameNodes
  have others (n : Node α) (hn : n ∈ e.search.stack) : n.number ≠ d.focus.node.number := by
    rw [same.stack] at hn
    intro equal
    apply (List.nodup_cons.mp h.distinct).1
    exact List.mem_map.mpr ⟨n, hn, equal⟩
  have given : d.focus.node.number ≤ e.search.lastNumber :=
    (h.numbers d.focus.node List.mem_cons_self).trans same.lastNumber.ge
  rw [next]
  have outcome := resolve_outcome plan e reply
  generalize answered : plan.resolve e reply = turn at outcome
  cases outcome with
  | dropped same' => exact .inl (.inr fun n hn => others n (same'.stack ▸ hn))
  | split x y splits =>
    refine .inl (.inr fun n hn => ?_)
    have listed : n ∈ x :: y :: e.search.stack := splits.stack ▸ hn
    have numbers := splits.numbers
    rcases List.mem_cons.mp listed with rfl | listed
    · omega
    · rcases List.mem_cons.mp listed with rfl | listed
      · omega
      · exact others n listed
  | @asked e' node_eq =>
    obtain ⟨heuristic, branching⟩ := resolve_asks answered
    refine .inr ⟨e', rfl, ?_, reaches.samePoint.point ▸ heuristic, branching⟩
    rw [node_eq, reaches.samePoint.focus]
  | stopped => exact .inl (.inl trivial)
  | ended => exact .inl (.inl trivial)
  | failed => exact .inl (.inl trivial)

/-- A search that is over or done with a node asks nothing more there. -/
theorem drive_done (confined : handler.Confined) (h : turn.Shaped b) (k : κ) {number : Nat}
    (given : number ≤ turn.search.lastNumber)
    (done : turn.IsOver ∨ ∀ n ∈ turn.nodesLeft, n.number ≠ number) (turns : Nat)
    (asks : (plan.drive handler turns turn k).1 = .ask e) : e.focus.node.number ≠ number := by
  rcases done with ended | done
  · rw [drive_of_isOver ended] at asks
    subst asks
    exact ended.elim
  · rintro rfl
    have follows := plan.drive_follows confined h k 0 turns
    rw [Nat.zero_add, asks] at follows
    exact done _ (follows.nodes _ List.mem_cons_self given) rfl

/-- A node is offered at its heuristic point first, then at its branching point, and never again. -/
theorem drive_offers (confined : handler.Confined) (h : turn.Shaped b) (k : κ) {first later : Nat}
    (less : first < later) (asks : (plan.drive handler first turn k).1 = .ask d)
    (asks' : (plan.drive handler later turn k).1 = .ask e)
    (same : e.focus.node.number = d.focus.node.number) :
    d.point = .heuristic ∧ e.point = .branching := by
  -- the number of a node in hand was given out before, so it is not given out again
  have ahead {i j : Nat} {d : Decision α} (less : i < j)
      (asks : (plan.drive handler i turn k).1 = .ask d) (shown : (plan.drive handler j turn k).1 = .ask e)
      (same : e.focus.node.number = d.focus.node.number) :
      ∃ d', (plan.drive handler (i + 1) turn k).1 = .ask d' ∧
        d'.focus.node.number = d.focus.node.number ∧ d.point = .heuristic ∧ d'.point = .branching := by
    obtain ⟨b', -, shaped⟩ := plan.drive_shaped confined h k i
    obtain ⟨follows, b'', -, shaped'⟩ :=
      drive_one_shaped confined shaped (plan.drive handler i turn k).2
    rw [drive_add rfl 1]
    rw [asks] at shaped shaped' follows ⊢
    have given := (shaped.numbers d.focus.node List.mem_cons_self).trans follows.lastNumber
    refine (drive_one_behind confined shaped _).resolve_left fun done => ?_
    have rest : (plan.drive handler (1 + (j - (i + 1))) (.ask d) (plan.drive handler i turn k).2).1 =
        .ask e := by
      rw [← asks, ← drive_add rfl, ← shown]
      congr
      omega
    rw [drive_add rfl] at rest
    exact drive_done confined shaped' _ given done _ rest same
  obtain ⟨d', asks_next, same', heuristic, branching⟩ := ahead less asks asks' same
  by_cases next : later = first + 1
  · rw [next, asks_next] at asks'
    cases asks'
    exact ⟨heuristic, branching⟩
  · obtain ⟨-, -, -, heuristic', -⟩ := ahead (by omega) asks_next asks' (same.trans same'.symm)
    rw [branching] at heuristic'
    cases heuristic'

omit [Scalar α] in
/-- A search starts with the root alone. -/
theorem start_shaped (plan : Plan α) (incumbent : Option (Solution α)) (interrupted : Bool) :
    (Turn.proceed (Search.start plan {} incumbent interrupted)).Shaped 0 := by
  unfold Search.start
  simp only
  generalize ReaderLine.opening _ _ _ = line
  generalize JournalEvent.started _ _ _ _ = event
  obtain ⟨journal, shown⟩ := Search.display_eq (Search.note ({
    stack := [Node.root plan.problem.sense.best], lastNumber := 1, stats := {}, incumbent
    monitor := (Search.monitorOf plan.settings).after .entered, interrupted
    engine := Random.Engine.ofSeed plan.settings.randomSeedShift, journal := #[] } :
      Search α) event) plan line
  rw [shown]
  refine ⟨List.nodup_singleton _, fun n hn => ?_, rfl, rfl, fun n hn => ?_, nofun, .nil⟩
  · rw [List.mem_singleton.mp hn]
    exact le_rfl
  · rw [List.mem_singleton.mp hn]
    rfl

/-- The open nodes of a search, whatever its callback does. At every turn they have the shape of a
depth-first search, with the numbers that as many branchings gave out as are counted, and no number comes
back later. Never more nodes are open at a decision point than the node in hand is deep. And each node
is offered once at its heuristic point and once at its branching point at most, in this order. -/
theorem open_nodes (plan : Plan α) (confined : handler.Confined) (incumbent : Option (Solution α))
    (interrupted : Bool) (k : κ) :
    let run (turns : Nat) :=
      (plan.drive handler turns (.proceed (Search.start plan {} incumbent interrupted)) k).1
    (∀ turns, ∃ b ≤ turns, (run turns).Shaped b ∧
      (b < 2 ^ 64 → (run turns).search.stats.branchings = b)) ∧
    (∀ first later, first ≤ later → (run later).Follows (run first)) ∧
    (∀ turns d e, run turns = .ask d → d.Reaches plan e →
      (e.snapshot plan).openNodes ≤ (e.snapshot plan).depth) ∧
    ∀ first later d e, first < later → run first = .ask d → run later = .ask e →
      e.focus.node.number = d.focus.node.number → d.point = .heuristic ∧ e.point = .branching := by
  intro run
  have started := start_shaped plan incumbent interrupted
  have shaped (turns : Nat) : ∃ b ≤ 0 + turns, (run turns).Shaped b :=
    plan.drive_shaped confined started k turns
  refine ⟨fun turns => ?_, fun first later le => ?_, fun turns d e asks reaches => ?_,
    fun first later d e less asks asks' same => drive_offers confined started k less asks asks' same⟩
  · obtain ⟨b, le, shape⟩ := shaped turns
    rw [Nat.zero_add] at le
    exact ⟨b, le, shape, fun small => shape.counted.trans (countUp_of_le (Nat.le_of_lt_succ small))⟩
  · obtain ⟨between, rfl⟩ := Nat.exists_eq_add_of_le le
    exact plan.drive_follows confined started k first between
  · obtain ⟨b, -, shape⟩ := shaped turns
    rw [asks] at shape
    have waiting : d.search.stack.length ≤ d.focus.node.depth := shape.towers.length_le
    show e.search.stack.length ≤ e.focus.node.depth
    rw [reaches.samePoint.stack, reaches.samePoint.focus]
    exact waiting

end Plan
end Runs

/-! ### A search that offers every decision -/

/-- The search of the freight with a callback at both points of each node. -/
def Plan.consulted : Plan Rat := .ofSettings .freight .millionth (some ⟨true, some {}⟩)

/-- Whether a search asks for the decision at a point of a node. -/
def Turn.offers (number : Nat) (point : DecisionPoint) : Turn Rat → Bool
  | .ask d => d.focus.node.number == number && d.point == point
  | _ => false

/-- A search that does so is at that decision point. -/
theorem Turn.exists_offer {number : Nat} {point : DecisionPoint} {turn : Turn Rat}
    (h : turn.offers number point = true) :
    ∃ d, turn = .ask d ∧ d.focus.node.number = number ∧ d.point = point := by
  cases turn with
  | ask d =>
    rw [offers, Bool.and_eq_true, beq_iff_eq, beq_iff_eq] at h
    exact ⟨d, rfl, h⟩
  | _ => cases h

/-- Node six is offered at its branching point while no more nodes are open than it is deep, and after
that it is offered no more. -/
theorem Plan.consulted_open_nodes : ∃ d,
    (Plan.consulted.drive Handler.passive 12
      (.proceed (Search.start Plan.consulted {} none false)) ()).1 = .ask d ∧
    d.focus.node.number = 6 ∧
    (d.snapshot Plan.consulted).openNodes ≤ (d.snapshot Plan.consulted).depth ∧
    ∀ later e, 12 < later → (Plan.consulted.drive Handler.passive later
      (.proceed (Search.start Plan.consulted {} none false)) ()).1 = .ask e →
        e.focus.node.number ≠ 6 := by
  obtain ⟨-, -, waiting, offers⟩ :=
    Plan.open_nodes Plan.consulted Handler.passive_confined none false ()
  have shown : (Plan.consulted.drive Handler.passive 12
      (.proceed (Search.start Plan.consulted {} none false)) ()).1.offers 6 .branching = true := by
    decide +kernel
  obtain ⟨d, asks, number, branching⟩ := Turn.exists_offer shown
  refine ⟨d, asks, number, waiting 12 d d asks .refl, fun later e after asks' again => ?_⟩
  obtain ⟨heuristic, -⟩ := offers 12 later d e after asks asks' (again.trans number.symm)
  rw [branching] at heuristic
  cases heuristic

end Milp
