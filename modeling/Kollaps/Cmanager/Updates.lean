import Kollaps.Cmanager.Joining
import Kollaps.Lib.Trace

/-!
# What the emulation manager is told of the cluster

The leader sends its graph when it has created the cluster and when a join is over, and the name of
a node that it takes out. Whoever applies these updates one by one has the nodes of the leader's
graph.
-/

namespace Kollaps

open Run Act Cgraph

namespace Cmanager

def updates (log : List Effect) : List CGraphUpdate :=
  log.filterMap fun
    | .update update => some update
    | .reply _ => none

namespace World

def updates (it : Iter) (w : World) : Move → List CGraphUpdate
  | .deliver i => w.datagrams[i]?.elim [] fun d =>
    match d.event with
    | .cjqRequest info => Cmanager.updates (w.leader.onCJQRequest info).log
    | _ => []
  | .serve i => w.connections[i]?.elim [] fun p => Cmanager.updates (w.leader.handle it p.2).log
  | .nodeFailure info => Cmanager.updates (w.leader.onNodeFailure it info).log
  | .heartbeatReset => Cmanager.updates w.leader.onCHeartbeatReset.log
  | _ => []

end World

/-- The runs of a world, each with its marks and the updates so far. -/
inductive Sent (w₀ : World) : List Mark → List CGraphUpdate → World → Prop
  | start : w₀.Initial → Sent w₀ [] [.new w₀.leader.cgraph] w₀
  | step {log : List Mark} {us : List CGraphUpdate} {w w' : World} (it : Iter) (m : Move)
      (h : Sent w₀ log us w) (hw' : (w.step it m).result = .ok w') :
      Sent w₀ (log ++ (w.step it m).log) (us ++ w.updates it m) w'

/-- The nodes of the cluster for the one that is told of the updates. -/
def replay (us : List CGraphUpdate) : List ClusterNodeInfo :=
  us.foldl (fun nodes update => match update with
    | .new graph => graph.infos
    | .remove n => nodes.filter (· ≠ n)) []

/-- The nodes that have taken part: those of the first graph, and those that asked to join. -/
def TookPart (w₀ : World) (log : List Mark) (n : ClusterNodeInfo) : Prop :=
  n ∈ w₀.leader.cgraph.infos ∨ .requested n ∈ log

/-- An update makes sense after others: a graph is well formed, with nodes that have taken part, and
a node that goes was there. -/
inductive Applies (w₀ : World) (log : List Mark) (us : List CGraphUpdate) : CGraphUpdate → Prop
  | new {graph : WCGraph} (hwf : graph.Wf) (hnodes : ∀ n ∈ graph.infos, TookPart w₀ log n) :
      Applies w₀ log us (.new graph)
  | remove {n : ClusterNodeInfo} (hn : n ∈ replay us) : Applies w₀ log us (.remove n)

theorem Sent.trace {w₀ w : World} {log : List Mark} {us : List CGraphUpdate} (h : Sent w₀ log us w) :
    Trace w₀ log w := by
  induction h with
  | start h => exact .start h
  | step it m h hw' ih => exact ih.step it m hw'

/-- The updates of some moves, as far as they apply. -/
def World.updatesOf (it : Iter) (w : World) : List Move → List CGraphUpdate
  | [] => []
  | m :: ms => w.updates it m ++ ((w.step it m).result.toOption.elim [] fun w' => w'.updatesOf it ms)

theorem Sent.run {it : Iter} {w₀ w w' : World} {log : List Mark} {us : List CGraphUpdate} {ms : List Move}
    (h : Sent w₀ log us w) (hw' : (w.run it ms).result = .ok w') :
    Sent w₀ (log ++ (w.run it ms).log) (us ++ w.updatesOf it ms) w' := by
  induction ms generalizing w log us with
  | nil =>
    cases hw'
    show Sent w₀ (log ++ []) (us ++ []) _
    rwa [List.append_nil, List.append_nil]
  | cons m ms ih =>
    unfold World.run at hw' ⊢
    rw [List.foldlM_cons] at hw' ⊢
    obtain ⟨w₁, hw₁, hw', hlog⟩ := of_bind_eq_ok hw'
    have hupdates : w.updatesOf it (m :: ms) = w.updates it m ++ w₁.updatesOf it ms := by
      rw [World.updatesOf, hw₁]
      rfl
    rw [hlog, hupdates, ← List.append_assoc, ← List.append_assoc]
    exact ih (h.step it m hw₁) hw'

@[simp] theorem replay_new (us : List CGraphUpdate) (graph : WCGraph) :
    replay (us ++ [.new graph]) = graph.infos := by
  simp [replay, List.foldl_append]

@[simp] theorem replay_remove (us : List CGraphUpdate) (n : ClusterNodeInfo) :
    replay (us ++ [.remove n]) = (replay us).filter (· ≠ n) := by
  simp [replay, List.foldl_append]

theorem TookPart.mono {w₀ : World} {log : List Mark} {n : ClusterNodeInfo} (h : TookPart w₀ log n)
    (marks : List Mark) : TookPart w₀ (log ++ marks) n :=
  h.imp_right fun hn => List.mem_append_left _ hn

theorem Applies.mono {w₀ : World} {log : List Mark} {us : List CGraphUpdate} {update : CGraphUpdate}
    (h : Applies w₀ log us update) (marks : List Mark) : Applies w₀ (log ++ marks) us update := by
  cases h with
  | new hwf hnodes => exact .new hwf fun n hn => (hnodes n hn).mono marks
  | remove hn => exact .remove hn

/-! ## One move -/

/-- The update that goes with a mark. -/
def told (graph : WCGraph) : Mark → Option CGraphUpdate
  | .updated _ => some (.new graph)
  | .removed n => some (.remove n)
  | .requested _ | .answered _ => none

theorem onCJQRequest_updates (c : Ctrl) (info : ClusterNodeInfo) :
    updates (c.onCJQRequest info).log = [] := by
  unfold Ctrl.onCJQRequest
  split
  · split
    · rfl
    · cases hid : c.clusterId <;> rfl
  · rfl

namespace World

variable {it : Iter} {w w' : World}

theorem serve_updates {i : Nat} (hl : w.leader.isLeader = true) (hc : ∀ p ∈ w.connections, p.2.isJoining)
    (h : (w.serve it i).result = .ok w') :
    w.updates it (.serve i) = (w.serve it i).log.filterMap (told w'.leader.cgraph) := by
  unfold serve at h ⊢
  obtain ⟨⟨n, event⟩, hi, h, hlog⟩ := of_bind_eq_ok h
  rw [hlog]
  rw [result_lift, get_eq_ok] at hi
  obtain ⟨-, -, h, hlog⟩ := of_bind_eq_ok h
  rw [hlog]
  obtain ⟨r, hr, h, hlog⟩ := of_bind_eq_ok h
  rw [hlog]
  obtain ⟨leader, hleader, rfl, hlead⟩ := lead_ok hr
  rw [hlead]
  cases h
  have hupdates : w.updates it (.serve i) = Cmanager.updates (w.leader.handle it event).log := by
    rw [updates, hi]
    rfl
  rw [hupdates]
  have hjoining := hc _ (List.mem_of_getElem? hi)
  cases event with
  | cGraphGet => rfl
  | cGraphUpdate graph =>
    have hspec := Ctrl.onCGraphUpdate_spec hl graph
    simp only [Ctrl.handle, hspec] at hleader ⊢
    cases hleader
    rfl
  | cjqAbort => rfl
  | _ => simp [Event.isJoining, Event.isLast] at hjoining

theorem nodeFailure_updates {info : ClusterNodeInfo} (hl : w.leader.isLeader = true)
    (h : (w.nodeFailure it info).result = .ok w') :
    w.updates it (.nodeFailure info) = (w.nodeFailure it info).log.filterMap (told w'.leader.cgraph) := by
  unfold nodeFailure at h ⊢
  obtain ⟨r, hr, h, hlog⟩ := of_bind_eq_ok h
  rw [hlog]
  obtain ⟨leader, hleader, rfl, hlead⟩ := lead_ok hr
  rw [hlead]
  cases h
  have hspec := Ctrl.onNodeFailure_spec hl hleader
  rw [updates]
  generalize (w.leader.onNodeFailure it info).log = log at hspec ⊢
  cases hspec <;> rfl

theorem step_updates {m : Move} (hl : w.leader.isLeader = true)
    (hc : ∀ p ∈ w.connections, p.2.isJoining) (h : (w.step it m).result = .ok w') :
    w.updates it m = (w.step it m).log.filterMap (told w'.leader.cgraph) := by
  have hstep := step_ok hl hc h
  cases m with
  | serve i => exact serve_updates hl hc h
  | nodeFailure info => exact nodeFailure_updates hl h
  | heartbeatReset =>
    cases h
    rfl
  | deliver i =>
    have hnone : w.updates it (.deliver i) = [] := by
      rw [updates]
      cases w.datagrams[i]? with
      | none => rfl
      | some d =>
        obtain ⟨b, event⟩ := d
        cases event with
        | cjqRequest info => exact onCJQRequest_updates w.leader info
        | _ => rfl
    rw [hnone]
    generalize (w.step it (.deliver i)).log = marks at hstep ⊢
    cases hstep <;> rfl
  | _ =>
    rw [updates]
    · generalize (w.step it _).log = marks at hstep ⊢
      cases hstep <;> rfl
    all_goals simp

end World

theorem Stepped.started {it : Iter} {w w' : World} {m : Move} {marks : List Mark}
    (h : Stepped it w m marks w') {n : ClusterNodeInfo} (hn : w'.phase n ≠ .off) :
    w.phase n ≠ .off ∨ .requested n ∈ marks := by
  have hset : ∀ {k : ClusterNodeInfo} {p : Peer}, w.phase k ≠ .off → (w.setPeer k p).phase n ≠ .off →
      w.phase n ≠ .off := by
    intro k p hk hp
    rw [World.phase_setPeer] at hp
    split at hp <;> rename_i heq
    · exact heq ▸ hk
    · exact hp
  cases h with
  | @request _ k ctrl tries hidle hinfo =>
    have hn : (w.setPeer k ⟨ctrl, tries, .pending w.nextRequest⟩).phase n ≠ .off := hn
    rw [World.phase_setPeer] at hn
    split at hn <;> rename_i heq
    · exact Or.inr (by simp [heq])
    · exact Or.inl hn
  | giveUp hphase | timeout hphase => exact Or.inl (hset (by rw [hphase]; simp) hn)
  | hearAccepted hd hphase | hearWait hd hphase => exact Or.inl (hset (by rw [hphase]; simp) hn)
  | askGraph hphase | failToAsk hphase => exact Or.inl (hset (by rw [hphase]; simp) hn)
  | receiveGraph hi hphase => exact Or.inl (hset (by rw [hphase]; simp) hn)
  | complete hphase hctrl => exact Or.inl (hset (by rw [hphase]; simp) hn)
  | failToComplete hphase => exact Or.inl (hset (by rw [hphase]; simp) hn)
  | _ => exact Or.inl hn

/-! ## Runs -/

/-- Only nodes that have taken part are in the leader's graph, and in the copy that is out. -/
structure Peopled (w₀ w : World) (log : List Mark) (s : Stage) : Prop where
  started : ∀ n, w.phase n ≠ .off → .requested n ∈ log
  leader : ∀ n ∈ w.leader.cgraph.infos, TookPart w₀ log n
  copy : ∀ m graph, s.copy = some (m, graph) → ∀ n ∈ graph.infos, TookPart w₀ log n

theorem Peopled.turn {it : Iter} {w₀ w w' : World} {m : Move} {log marks : List Mark} {s s' : Stage}
    (h : Peopled w₀ w log s) (hlock : Lock w s) (hcopies : Copies w s) (hstep : Stepped it w m marks w')
    (hturn : Turn it w w' marks s s') : Peopled w₀ w' (log ++ marks) s' := by
  have hstarted : ∀ n, w'.phase n ≠ .off → .requested n ∈ log ++ marks := by
    intro n hn
    rw [List.mem_append]
    exact (hstep.started hn).imp_left (h.started n)
  have hleader : w'.leader.cgraph = w.leader.cgraph → ∀ n ∈ w'.leader.cgraph.infos,
      TookPart w₀ (log ++ marks) n := by
    intro hgraph n hn
    rw [hgraph] at hn
    exact (h.leader n hn).mono marks
  cases hturn with
  | quiet hmarks hgraph hstage =>
    refine ⟨hstarted, hleader hgraph, fun k graph hcopy n hn => ?_⟩
    rcases hstage with rfl | hnone
    · exact (h.copy k graph hcopy n hn).mono marks
    · rw [hnone] at hcopy
      cases hcopy
  | received hgraph =>
    exact ⟨hstarted, hleader hgraph, fun k graph hcopy n hn => (h.copy k graph hcopy n hn).mono []⟩
  | answered hgraph =>
    refine ⟨hstarted, hleader hgraph, fun k graph hcopy n hn => ?_⟩
    cases hcopy
    exact (h.leader n hn).mono _
  | @completed joiner graph graph' hgraph hgraph' =>
    obtain ⟨-, hinfos⟩ := hgraph' (hcopies.copy joiner graph rfl).1
    refine ⟨hstarted, hleader hgraph, fun k copy hcopy n hn => ?_⟩
    cases hcopy
    rcases (hinfos n).mp hn with hn | rfl
    · exact (h.copy _ graph rfl n hn).mono []
    · -- The joiner has asked, or it would not make tests.
      obtain ⟨⟨id, hphase⟩, -⟩ := hlock.fits
      exact TookPart.mono (Or.inr (h.started n (by rw [hphase]; simp))) []
  | @updated joiner graph hgraph =>
    refine ⟨hstarted, fun n hn => ?_, fun k copy hcopy => by cases hcopy⟩
    rw [hgraph] at hn
    exact (h.copy joiner graph rfl n hn).mono _
  | removed hgraph =>
    obtain ⟨-, hinfos⟩ := CGraph.removeOneBy_infos hcopies.wf hgraph
    exact ⟨hstarted, fun n hn => (h.leader n ((hinfos n).mp hn).1).mono _,
      fun k graph hcopy n hn => (h.copy k graph hcopy n hn).mono _⟩

/-- What the updates tell is what the leader has. -/
structure Told (w₀ w : World) (log : List Mark) (us : List CGraphUpdate) : Prop where
  nodes : ∀ n, n ∈ replay us ↔ n ∈ w.leader.cgraph.infos
  applies : Each (Applies w₀ log) us

theorem Told.turn {it : Iter} {w₀ w w' : World} {log marks : List Mark} {us : List CGraphUpdate}
    {s s' : Stage}
    (h : Told w₀ w log us) (hcopies : Copies w s) (hpeopled : Peopled w₀ w log s)
    (hturn : Turn it w w' marks s s') :
    Told w₀ w' (log ++ marks) (us ++ marks.filterMap (told w'.leader.cgraph)) := by
  have happlies : Each (Applies w₀ (log ++ marks)) us :=
    fun pre u post hus => (h.applies pre u post hus).mono marks
  have hquiet : marks.filterMap (told w'.leader.cgraph) = [] → w'.leader.cgraph = w.leader.cgraph →
      Told w₀ w' (log ++ marks) (us ++ marks.filterMap (told w'.leader.cgraph)) := by
    intro hnone hgraph
    rw [hnone, List.append_nil]
    refine ⟨fun n => ?_, happlies⟩
    rw [hgraph]
    exact h.nodes n
  cases hturn with
  | quiet hmarks hgraph hstage =>
    refine hquiet ?_ hgraph
    rcases hmarks with rfl | ⟨n, rfl⟩ <;> rfl
  | received hgraph | answered hgraph | completed hgraph => exact hquiet rfl hgraph
  | @updated joiner graph hgraph =>
    show Told w₀ w' _ (us ++ [.new w'.leader.cgraph])
    refine ⟨fun n => by rw [replay_new], each_snoc.mpr ⟨happlies, ?_⟩⟩
    rw [hgraph]
    exact .new (hcopies.copy joiner graph rfl).1 fun n hn => (hpeopled.copy joiner graph rfl n hn).mono _
  | @removed info s hgraph =>
    show Told w₀ w' _ (us ++ [.remove info])
    obtain ⟨node, hnode, hinfo⟩ := CGraph.removeOneBy_ok hgraph
    have hmem : info ∈ w.leader.cgraph.infos := List.mem_map.mpr ⟨node, hnode, of_decide_eq_true hinfo⟩
    obtain ⟨-, hinfos⟩ := CGraph.removeOneBy_infos hcopies.wf hgraph
    refine ⟨fun n => ?_, each_snoc.mpr ⟨happlies, .remove ((h.nodes info).mpr hmem)⟩⟩
    rw [replay_remove, List.mem_filter, decide_eq_true_eq, h.nodes, hinfos]

theorem Applies.all {w₀ : World} {log : List Mark} {us : List CGraphUpdate} (h : Each (Applies w₀ log) us)
    {n : ClusterNodeInfo} (hn : n ∈ replay us) : TookPart w₀ log n := by
  induction us using List.reverseRecOn with
  | nil => cases hn
  | append_singleton us u ih =>
    obtain ⟨hold, happlies⟩ := each_snoc.mp h
    cases happlies with
    | new hwf hnodes =>
      rw [replay_new] at hn
      exact hnodes n hn
    | remove hmem =>
      rw [replay_remove, List.mem_filter] at hn
      exact ih hold hn.1

/-- In every run each update applies to those before it, and together they give the leader's graph. -/
theorem Sent.told {w₀ w : World} {log : List Mark} {us : List CGraphUpdate} (h : Sent w₀ log us w) :
    Told w₀ w log us := by
  suffices hrun : Told w₀ w log us ∧ ∃ s, Lock w s ∧ Copies w s ∧ Peopled w₀ w log s from hrun.1
  induction h with
  | start h =>
    obtain ⟨hlock, hcopies⟩ := h.lock
    have hgraph : ∀ n ∈ w₀.leader.cgraph.infos, TookPart w₀ [] n := fun n hn => Or.inl hn
    refine ⟨⟨fun n => by simp [replay], each_singleton.mpr (.new hcopies.wf hgraph)⟩, .free, hlock, hcopies,
      fun n hn => absurd (h.peers n).1 hn, hgraph, fun k graph hcopy => by cases hcopy⟩
  | step it m h hw' ih =>
    obtain ⟨htold, s, hlock, hcopies, hpeopled⟩ := ih
    have hstep := World.step_ok hlock.leads hlock.joining hw'
    obtain ⟨s', hlock', hturn⟩ := hlock.turn hstep
    rw [World.step_updates hlock.leads hlock.joining hw']
    exact ⟨htold.turn hcopies hpeopled hturn, s', hlock', hcopies.turn hturn,
      hpeopled.turn hlock hcopies hstep hturn⟩

end Cmanager

end Kollaps
