import Kollaps.Cmanager.Joining

/-!
# Removals during a join

The update of a join replaces the leader's graph by the copy that the joiner has worked on.
-/

namespace Kollaps

open Run Act Cgraph

namespace Cmanager

/-- The nodes that were removed, and have not asked to join again since. -/
def gone (log : List Mark) : List ClusterNodeInfo :=
  log.foldl (fun nodes mark => match mark with
    | .removed n => n :: nodes
    | .requested n => nodes.filter (· ≠ n)
    | _ => nodes) []

def overtaken (log : List Mark) (joiner : ClusterNodeInfo) : List ClusterNodeInfo :=
  log.foldl (fun nodes mark => match mark with
    | .answered n => if n = joiner then [] else nodes
    | .removed n => n :: nodes
    | .requested n => nodes.filter (· ≠ n)
    | _ => nodes) []

/-- What has happened before the update of a node comes: its copy is not older than a removal,
and the node itself was not removed while it was joining. -/
def Allows (log : List Mark) : Mark → Prop
  | .updated joiner => overtaken log joiner = [] ∧ joiner ∉ gone log
  | _ => True

instance (log : List Mark) : (mark : Mark) → Decidable (Allows log mark)
  | .updated joiner => inferInstanceAs (Decidable (overtaken log joiner = [] ∧ joiner ∉ gone log))
  | .requested _ | .answered _ | .removed _ => inferInstanceAs (Decidable True)

def Timely (log : List Mark) : Prop :=
  ∀ i < log.length, ∀ mark ∈ log[i]?, Allows (log.take i) mark

instance (log : List Mark) : Decidable (Timely log) :=
  inferInstanceAs (Decidable (∀ i < log.length, ∀ mark ∈ log[i]?, Allows (log.take i) mark))

section

variable (log : List Mark) (n joiner : ClusterNodeInfo)

@[simp] theorem gone_requested : gone (log ++ [.requested n]) = (gone log).filter (· ≠ n) := by
  simp [gone, List.foldl_append]

@[simp] theorem gone_answered : gone (log ++ [.answered n]) = gone log := by
  simp [gone, List.foldl_append]

@[simp] theorem gone_updated : gone (log ++ [.updated n]) = gone log := by
  simp [gone, List.foldl_append]

@[simp] theorem gone_removed : gone (log ++ [.removed n]) = n :: gone log := by
  simp [gone, List.foldl_append]

@[simp] theorem overtaken_requested :
    overtaken (log ++ [.requested n]) joiner = (overtaken log joiner).filter (· ≠ n) := by
  simp [overtaken, List.foldl_append]

@[simp] theorem overtaken_answered : overtaken (log ++ [.answered joiner]) joiner = [] := by
  simp [overtaken, List.foldl_append]

@[simp] theorem overtaken_removed :
    overtaken (log ++ [.removed n]) joiner = n :: overtaken log joiner := by
  simp [overtaken, List.foldl_append]

end

theorem timely_append {log : List Mark} {mark : Mark} :
    Timely (log ++ [mark]) ↔ Timely log ∧ Allows log mark := by
  constructor
  · intro h
    refine ⟨fun i hi m hm => ?_, ?_⟩
    · have := h i (by rw [List.length_append]; omega) m
      rw [List.getElem?_append_left hi, List.take_append_of_le_length (by omega)] at this
      exact this hm
    · have := h log.length (by simp) mark (by simp)
      rwa [List.take_left] at this
  · rintro ⟨h, hlast⟩ i hi m hm
    rw [List.length_append, List.length_singleton] at hi
    rcases Nat.lt_succ_iff_lt_or_eq.mp hi with hi | rfl
    · rw [List.getElem?_append_left hi] at hm
      rw [List.take_append_of_le_length (by omega)]
      exact h i hi m hm
    · rw [List.getElem?_concat_length, Option.mem_some_iff] at hm
      rw [List.take_left, ← hm]
      exact hlast

/-- What the copy that is out has of the nodes that are gone. -/
structure Recorded (log : List Mark) (s : Stage) : Prop where
  kept : ∀ n graph, s.copy = some (n, graph) → ∀ x ∈ graph.infos, x ∈ gone log →
    x = n ∨ x ∈ overtaken log n
  lost : ∀ n graph, s.copy = some (n, graph) → ∀ x ∈ overtaken log n,
    x ∈ graph.infos ∧ x ∈ gone log
  joiner : ∀ n graph, s = .leaving n (.cGraphUpdate graph) → n ∈ graph.infos

/-- No node that is gone is in the graph. -/
def Away (log : List Mark) (w : World) : Prop := ∀ n ∈ gone log, n ∉ w.leader.cgraph.infos

theorem Recorded.away_iff {log : List Mark} {n : ClusterNodeInfo} {graph : WCGraph}
    (h : Recorded log (.leaving n (.cGraphUpdate graph))) :
    (∀ x ∈ gone log, x ∉ graph.infos) ↔ Allows log (.updated n) := by
  constructor
  · intro haway
    refine ⟨List.eq_nil_iff_forall_not_mem.mpr fun x hx => ?_, fun hn => ?_⟩
    · obtain ⟨hgraph, hgone⟩ := h.lost n graph rfl x hx
      exact haway x hgone hgraph
    · exact haway n hn (h.joiner n graph rfl)
  · rintro ⟨hover, hjoiner⟩ x hx hgraph
    rcases h.kept n graph rfl x hgraph hx with rfl | hmem
    · exact hjoiner hx
    · rw [hover] at hmem
      cases hmem

theorem Recorded.turn {it : Iter} {w w' : World} {log marks : List Mark} {s s' : Stage}
    (h : Recorded log s) (haway : Away log w) (hcopies : Copies w s)
    (hturn : Turn it w w' marks s s') : Recorded (log ++ marks) s' := by
  cases hturn with
  | quiet hmarks hgraph hstage =>
    rcases hstage with rfl | hnone
    · rcases hmarks with rfl | ⟨m, rfl⟩
      · rw [List.append_nil]
        exact ⟨h.kept, h.lost, h.joiner⟩
      · refine ⟨fun n graph hcopy x hx hgone => ?_, fun n graph hcopy x hx => ?_, h.joiner⟩
        · rw [gone_requested, List.mem_filter] at hgone
          rw [overtaken_requested, List.mem_filter]
          exact (h.kept n graph hcopy x hx hgone.1).imp_right fun hx => ⟨hx, hgone.2⟩
        · rw [overtaken_requested, List.mem_filter] at hx
          rw [gone_requested, List.mem_filter]
          obtain ⟨hgraph, hgone⟩ := h.lost n graph hcopy x hx.1
          exact ⟨hgraph, hgone, hx.2⟩
    · have hno : ∀ {n : ClusterNodeInfo} {graph : WCGraph}, s'.copy ≠ some (n, graph) := by
        rw [hnone]
        exact fun h => by cases h
      refine ⟨fun n graph hcopy => absurd hcopy hno, fun n graph hcopy => absurd hcopy hno, ?_⟩
      rintro n graph rfl
      exact absurd rfl hno
  | received hgraph =>
    rw [List.append_nil]
    exact ⟨h.kept, h.lost, nofun⟩
  | @answered joiner hgraph =>
    refine ⟨fun n graph hcopy x hx hgone => ?_, fun n graph hcopy x hx => ?_, nofun⟩
    · cases hcopy
      rw [gone_answered] at hgone
      exact absurd hx (haway x hgone)
    · cases hcopy
      rw [overtaken_answered] at hx
      cases hx
  | @completed joiner graph graph' hgraph hgraph' =>
    obtain ⟨-, hinfos⟩ := hgraph' (hcopies.copy joiner graph rfl).1
    rw [List.append_nil]
    refine ⟨fun n copy hcopy x hx hgone => ?_, fun n copy hcopy x hx => ?_, fun n copy hs => ?_⟩
    · cases hcopy
      rcases (hinfos x).mp hx with hx | hx
      · exact h.kept joiner graph rfl x hx hgone
      · exact Or.inl hx
    · cases hcopy
      obtain ⟨hold, hgone⟩ := h.lost joiner graph rfl x hx
      exact ⟨(hinfos x).mpr (Or.inl hold), hgone⟩
    · cases hs
      exact (hinfos _).mpr (Or.inr rfl)
  | updated hgraph =>
    exact ⟨nofun, nofun, nofun⟩
  | @removed info s hgraph =>
    obtain ⟨node, hnode, hinfo⟩ := CGraph.removeOneBy_ok hgraph
    have hmem : info ∈ w.leader.cgraph.infos :=
      List.mem_map.mpr ⟨node, hnode, of_decide_eq_true hinfo⟩
    refine ⟨fun n graph hcopy x hx hgone => ?_, fun n graph hcopy x hx => ?_, h.joiner⟩
    · rw [gone_removed, List.mem_cons] at hgone
      rw [overtaken_removed, List.mem_cons]
      rcases hgone with hgone | hgone
      · exact Or.inr (Or.inl hgone)
      · exact (h.kept n graph hcopy x hx hgone).imp_right Or.inr
    · rw [overtaken_removed, List.mem_cons] at hx
      rw [gone_removed, List.mem_cons]
      rcases hx with rfl | hx
      · exact ⟨(hcopies.copy n graph hcopy).2 x hmem, Or.inl rfl⟩
      · obtain ⟨hold, hgone⟩ := h.lost n graph hcopy x hx
        exact ⟨hold, Or.inr hgone⟩

/-- What a step does to the leader's graph: only the update of a join adds nodes. -/
theorem Away.turn {it : Iter} {w w' : World} {log marks : List Mark} {s s' : Stage}
    (haway : Away log w) (h : Recorded log s) (hcopies : Copies w s)
    (hturn : Turn it w w' marks s s') : Away (log ++ marks) w' ↔ ∀ mark ∈ marks, Allows log mark := by
  have hkept : ∀ {marks : List Mark}, (∀ mark ∈ marks, Allows log mark) →
      (∀ x ∈ gone (log ++ marks), x ∈ gone log) → w'.leader.cgraph = w.leader.cgraph →
      (Away (log ++ marks) w' ↔ ∀ mark ∈ marks, Allows log mark) := by
    intro marks hallows hgone hgraph
    refine iff_of_true (fun x hx => ?_) hallows
    rw [hgraph]
    exact haway x (hgone x hx)
  cases hturn with
  | quiet hmarks hgraph hstage =>
    rcases hmarks with rfl | ⟨m, rfl⟩
    · exact hkept (by simp) (by simp) hgraph
    · exact hkept (by simp [Allows]) (by simp +contextual) hgraph
  | received hgraph => exact hkept (by simp) (by simp) hgraph
  | answered hgraph => exact hkept (by simp [Allows]) (by simp) hgraph
  | completed hgraph => exact hkept (by simp) (by simp) hgraph
  | @updated joiner graph hgraph =>
    have hiff := h.away_iff
    unfold Away
    rw [gone_updated, hgraph, hiff]
    simp
  | @removed info s hgraph =>
    obtain ⟨-, hinfos⟩ := CGraph.removeOneBy_infos hcopies.wf hgraph
    refine iff_of_true (fun x hx hmem => ?_) (by simp [Allows])
    obtain ⟨hold, hne⟩ := (hinfos x).mp hmem
    rw [gone_removed, List.mem_cons] at hx
    rcases hx with hx | hx
    · exact hne hx
    · exact haway x hx hold

theorem timely_of_turn {it : Iter} {w w' : World} {log marks : List Mark} {s s' : Stage}
    (hturn : Turn it w w' marks s s') :
    Timely (log ++ marks) ↔ Timely log ∧ ∀ mark ∈ marks, Allows log mark := by
  have hmarks : marks = [] ∨ ∃ mark, marks = [mark] := by
    cases hturn with
    | quiet hmarks hgraph hstage => exact hmarks.imp_right fun ⟨n, hn⟩ => ⟨_, hn⟩
    | received | completed => exact Or.inl rfl
    | answered | updated | removed => exact Or.inr ⟨_, rfl⟩
  rcases hmarks with rfl | ⟨mark, rfl⟩
  · simp
  · simp [timely_append]

theorem Trace.recorded {w₀ w : World} {log : List Mark} (h : Trace w₀ log w) (htimely : Timely log) :
    ∃ s, Lock w s ∧ Copies w s ∧ Recorded log s ∧ Away log w := by
  induction h with
  | start h =>
    obtain ⟨hlock, hcopies⟩ := h.lock
    exact ⟨.free, hlock, hcopies, ⟨nofun, nofun, nofun⟩, nofun⟩
  | step it m h hw' ih =>
    obtain ⟨s₀, hlock₀, -⟩ := h.lock
    obtain ⟨_, _, hturn₀⟩ := hlock₀.turn (World.step_ok hlock₀.leads hlock₀.joining hw')
    obtain ⟨hold, hmarks⟩ := (timely_of_turn hturn₀).mp htimely
    obtain ⟨s, hlock, hcopies, hrecorded, haway⟩ := ih hold
    obtain ⟨s', hlock', hturn⟩ := hlock.turn (World.step_ok hlock.leads hlock.joining hw')
    exact ⟨s', hlock', hcopies.turn hturn, hrecorded.turn haway hcopies hturn,
      (haway.turn hrecorded hcopies hturn).mpr hmarks⟩

/-- In a run whose updates all come in time, no node that is gone is in the leader's graph; and
the next step keeps it so exactly if it is not an update that comes too late. -/
theorem no_removal_lost {w₀ w : World} {log : List Mark} (h : Trace w₀ log w) (htimely : Timely log) :
    (∀ n ∈ gone log, n ∉ w.leader.cgraph.infos) ∧
    ∀ it m w', (w.step it m).result = .ok w' →
      ((∀ n ∈ gone (log ++ (w.step it m).log), n ∉ w'.leader.cgraph.infos) ↔
        Timely (log ++ (w.step it m).log)) := by
  obtain ⟨s, hlock, hcopies, hrecorded, haway⟩ := h.recorded htimely
  refine ⟨haway, fun it m w' hw' => ?_⟩
  obtain ⟨s', -, hturn⟩ := hlock.turn (World.step_ok hlock.leads hlock.joining hw')
  have hnext := haway.turn hrecorded hcopies hturn
  rw [timely_of_turn hturn]
  exact hnext.trans (and_iff_right htimely).symm

/-- The moves of a join, from its start to the message that the node sends last. -/
def demoJoin (n : Nat) : List Move :=
  [.start (demoNode n), .deliver 0, .deliver 0, .askGraph (demoNode n), .serve 0, .receiveGraph 0,
    demoComplete n, .serve 0]

/-- Node 1 is removed while node 2 makes its tests. -/
def demoLate : List Move :=
  demoJoin 1 ++ [.start (demoNode 2), .deliver 0, .deliver 0, .askGraph (demoNode 2), .serve 0,
    .nodeFailure (demoNode 1), .nodeFailure (demoNode 1), .receiveGraph 0, demoComplete 2, .serve 0]

theorem no_removal_lost_demo : ∃ w₀ log w, Trace w₀ log w ∧ gone log = [demoNode 1] ∧
    .updated (demoNode 2) ∈ log ∧ demoNode 1 ∉ w.leader.cgraph.infos := by
  have hgone : gone (demoRun (demoJoin 1 ++ [.nodeFailure (demoNode 1), .nodeFailure (demoNode 1)] ++
      demoJoin 2)).log = [demoNode 1] := by decide +kernel
  obtain ⟨w, hw, -⟩ : Returns (demoRun (demoJoin 1 ++ [.nodeFailure (demoNode 1),
      .nodeFailure (demoNode 1)] ++ demoJoin 2)).result fun _ => True := by decide +kernel
  obtain ⟨w₀, htrace⟩ := demoRun_trace hw
  exact ⟨w₀, _, w, htrace, hgone, by decide +kernel,
    (no_removal_lost htrace (by decide +kernel)).1 _ (by rw [hgone]; exact List.mem_singleton_self _)⟩

/-- The update of the joiner brings back the node that was removed meanwhile. -/
theorem removal_lost : ∃ w₀ log w, Trace w₀ log w ∧ log.getLast? = some (.updated (demoNode 2)) ∧
    demoNode 1 ∈ gone log ∧ demoNode 1 ∈ w.leader.cgraph.infos := by
  obtain ⟨w, hw, hmem⟩ : Returns (demoRun demoLate).result
      fun w => demoNode 1 ∈ w.leader.cgraph.infos := by decide +kernel
  obtain ⟨w₀, htrace⟩ := demoRun_trace hw
  exact ⟨w₀, _, w, htrace, by decide +kernel, by decide +kernel, hmem⟩

end Cmanager

end Kollaps
