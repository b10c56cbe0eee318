import Kollaps.Cmanager.Removal
import Kollaps.Cmanager.Updates
import Kollaps.Orchestrator.Following
import Kollaps.Pubapi.Survival

/-!
# The hosts of the orchestrator are the nodes of the cluster

The cluster manager of the leader sends its updates through a channel, and the manager of the
topologies takes them one by one, between any other messages.
-/

namespace Kollaps

open Run Act Cgraph

namespace Cmanager

def Apart (w₀ : World) (log : List Mark) : Prop :=
  ∀ a b, TookPart w₀ log a → TookPart w₀ log b → a.ipAddr = b.ipAddr → a = b

theorem Apart.distinct {w₀ : World} {log : List Mark} (h : Apart w₀ log) {graph : WCGraph} (hwf : graph.Wf)
    (hnodes : ∀ n ∈ graph.infos, TookPart w₀ log n) : DistinctIps graph := by
  have hmap : (graph.infos.map ClusterNodeInfo.ipAddr).Nodup :=
    hwf.infos.map_on fun a ha b hb => h a b (hnodes a ha) (hnodes b hb)
  rwa [CGraph.infos, List.map_map] at hmap

end Cmanager

open Cmanager (Sent Apart Applies TookPart replay)

namespace Orchestrator

theorem SameCluster.follows {o o' : Orchestrator} {cluster : List ClusterNodeInfo} (h : SameCluster o o')
    (ho : o.Follows cluster) : o'.Follows cluster := by
  intro n
  rw [h.hostMapping, h.emanagersPort]
  exact ho n

end Orchestrator

namespace Pubapi

/-- The update of the cluster that an input is. -/
def Input.change : Input → Option Cmanager.CGraphUpdate
  | .update u => some u
  | .message _ _ => none

namespace OManager

/-- The orchestrator can work on, with the nodes of the cluster as its hosts. -/
structure Mirrors (port : Nat) (cluster : List ClusterNodeInfo) (m : OManager) : Prop where
  sound : m.orchestrator.Sound
  port : m.orchestrator.emanagersPort = port
  follows : m.orchestrator.Follows cluster

variable {env : Env} {m m' : OManager} {port : Nat} {cluster : List ClusterNodeInfo}

theorem Mirrors.same (h : m.Mirrors port cluster) (hsound : m'.orchestrator.Sound)
    (hcluster : Orchestrator.SameCluster m.orchestrator m'.orchestrator) : m'.Mirrors port cluster :=
  ⟨hsound, hcluster.emanagersPort.trans h.port, hcluster.follows h.follows⟩

/-! ## Messages -/

theorem Mirrors.message {uuid : Uuid} {message : OManagerMessage} (h : m.Mirrors port cluster)
    (hm' : (m.handleExperimentMessage env uuid message).result = .ok m') : m'.Mirrors port cluster := by
  cases message with
  | newTopology top =>
    have hspec := onNewTopology_spec hm'
    generalize (m.onNewTopology env uuid top).log = log at hspec
    cases hspec with
    | refused reason hmiss => exact h
    | entered ok hparse hplace hok hlog =>
      obtain ⟨matrix, p, places, hplaced, -⟩ := Orchestrator.newEmulation_some hplace
      exact h.same (hplaced.sound h.sound) hplaced.cluster
  | abort id =>
    have horch := ((onAbort_spec id).of_eq hm').orchestrator
    refine ⟨?_, ?_, ?_⟩ <;> rw [horch]
    · exact h.sound
    · exact h.port
    · exact h.follows
  | cleanStop id node appIndex =>
    rcases onCleanStop_ok hm' with ⟨-, rfl⟩ | ⟨o, hstop, rfl⟩
    · exact h
    · obtain ⟨matrix, p, hstopped⟩ := Orchestrator.stopAppEmulationOn_ok hstop
      exact h.same (hstopped.sound h.sound) hstopped.cluster
  | emulationReady id node =>
    obtain ⟨nodes, -, -, hgo, hstall⟩ := onEmulationReady_ok hm'
    have horch : m'.orchestrator = m.orchestrator := by
      by_cases hs : m.Stalls env id node
      · exact (hstall hs).orchestrator
      · rw [hgo hs]
        rfl
    refine ⟨?_, ?_, ?_⟩ <;> rw [horch]
    · exact h.sound
    · exact h.port
    · exact h.follows
  | accepted | rejected reason =>
    cases hm'
    exact h

/-! ## Updates -/

variable {w₀ w : Cmanager.World} {log : List Cmanager.Mark} {us : List Cmanager.CGraphUpdate}
  {u : Cmanager.CGraphUpdate}

theorem Mirrors.update (hapart : Apart w₀ log) (hall : ∀ n ∈ replay us, TookPart w₀ log n)
    (happlies : Applies w₀ log us u) (h : m.Mirrors port (replay us))
    (hm' : (m.onUpdate env u).result = .ok m') : m'.Mirrors port (replay (us ++ [u])) := by
  cases happlies with
  | @new graph hwf hnodes =>
    obtain ⟨o, uuids, ho, haborted⟩ := onChange_ok hm'
    obtain ⟨hsound, hport, hfollows⟩ := Orchestrator.updateWithCgraph_follows hwf.indexed
      (hapart.distinct hwf hnodes) h.sound ho
    rw [Cmanager.replay_new]
    refine ⟨?_, ?_, ?_⟩ <;> rw [haborted.orchestrator]
    · exact hsound
    · exact hport.trans h.port
    · exact hfollows
  | @remove n hn =>
    obtain ⟨o, uuids, ho, haborted⟩ := onChange_ok hm'
    obtain ⟨i, o₁, hremoved⟩ := Orchestrator.removeClusterNode_ok ho
    have hshrunk := hremoved.shrunk h.sound
    rw [Cmanager.replay_remove]
    refine ⟨?_, ?_, ?_⟩ <;> rw [haborted.orchestrator]
    · exact hshrunk.sound
    · exact hshrunk.emanagersPort.trans h.port
    · exact h.follows.shrunk (fun c hc => hapart c n (hall c hc) (hall n hn)) hshrunk

theorem onChange_returns {r : Run (Orchestrator × List Uuid)} (h : Returns r fun _ => True) :
    Returns (m.onChange env r).result fun _ => True := by
  obtain ⟨⟨o, uuids⟩, rfl, -⟩ := h
  exact (abortEmulations_spec uuids).mono fun _ _ => trivial

theorem Mirrors.onUpdate_returns (har : env.ar ≠ .checked) (hapart : Apart w₀ log)
    (happlies : Applies w₀ log us u) (h : m.Mirrors port (replay us)) :
    Returns (m.onUpdate env u).result fun _ => True := by
  cases happlies with
  | @new graph hwf hnodes =>
    exact onChange_returns (Orchestrator.updateWithCgraph_returns har hwf.indexed (hapart.distinct hwf hnodes)
      h.sound)
  | @remove n hn =>
    refine onChange_returns ((Orchestrator.removeClusterNode_returns har h.sound ?_).mono fun _ _ => trivial)
    exact (h.follows _).mpr ⟨n, hn, rfl⟩

/-! ## Runs -/

def taken (graph : CGraph ClusterNodeInfo) (inputs : List (Env × Input)) : List Cmanager.CGraphUpdate :=
  .new graph :: inputs.filterMap fun x => x.2.change

theorem Mirrors.run {sent : List Cmanager.CGraphUpdate} {m₀ : OManager} {inputs : List (Env × Input)}
    (hsent : Sent w₀ log sent w) (hapart : Apart w₀ log) (h₀ : m₀.Mirrors port w₀.leader.cgraph.infos)
    (h : m₀.acceptTopology inputs = .ok m) (htaken : taken w₀.leader.cgraph inputs <+: sent) :
    m.Mirrors port (replay (taken w₀.leader.cgraph inputs)) := by
  refine acceptTopology_inv (fun done s => taken w₀.leader.cgraph done <+: sent →
    s.Mirrors port (replay (taken w₀.leader.cgraph done))) (fun _ => h₀)
    (fun pre x post s s' hx hpre hs hstep hprefix => ?_) h htaken
  obtain ⟨env, input⟩ := x
  have hsnoc : taken w₀.leader.cgraph (pre ++ [(env, input)]) =
      taken w₀.leader.cgraph pre ++ input.change.toList := by
    unfold taken
    rw [List.filterMap_append, ← List.cons_append]
    cases input <;> rfl
  rw [hsnoc] at hprefix ⊢
  have hs := hs ((List.prefix_append _ _).trans hprefix)
  cases input with
  | message uuid message =>
    rw [Input.change, Option.toList_none, List.append_nil]
    exact hs.message hstep
  | update update =>
    obtain ⟨rest, hrest⟩ := hprefix
    have heach := hsent.told.applies
    rw [← hrest, each_append] at heach
    obtain ⟨hbefore, happlies⟩ : Each _ (taken w₀.leader.cgraph pre) ∧ Applies w₀ log _ update :=
      each_snoc.mp heach.1
    exact hs.update hapart (fun n hn => Applies.all hbefore hn) happlies hstep

end OManager

open OManager

/-- Whatever is submitted, aborted and stopped in between, the orchestrator has for its hosts the
nodes of the cluster as the updates so far tell it, each once and with one row, and it can handle
the next update. After all of them, these are the nodes of the leader's graph. -/
theorem cluster_mirrored {w₀ w : Cmanager.World} {log : List Cmanager.Mark}
    {sent : List Cmanager.CGraphUpdate}
    (hsent : Sent w₀ log sent w) (hapart : Apart w₀ log) (it : Iter) (myInfo : ClusterNodeInfo)
    (omanagerPort emanagerPort maxLoad : Nat) :
    Returns (build it myInfo omanagerPort emanagerPort w₀.leader.cgraph maxLoad) fun m₀ =>
      ∀ inputs m, m₀.acceptTopology inputs = .ok m → taken w₀.leader.cgraph inputs <+: sent →
        (m.orchestrator.hostMapping.Nodup ∧
          m.orchestrator.residualGraph.size = m.orchestrator.hostMapping.length ∧
          ∀ n, n ∈ m.orchestrator.hostMapping ↔
            ∃ c ∈ replay (taken w₀.leader.cgraph inputs), n = { c with port := emanagerPort }) ∧
        (taken w₀.leader.cgraph inputs = sent → ∀ n, n ∈ m.orchestrator.hostMapping ↔
          ∃ c ∈ w.leader.cgraph.infos, n = { c with port := emanagerPort }) ∧
        ∀ env update, env.ar ≠ .checked → taken w₀.leader.cgraph inputs ++ [update] <+: sent →
          Returns (m.onUpdate env update).result fun _ => True := by
  have htold := hsent.told
  obtain ⟨rest, hrest⟩ : ∃ rest, sent = .new w₀.leader.cgraph :: rest := by
    clear htold hapart
    induction hsent with
    | start h => exact ⟨[], rfl⟩
    | step it m h hw' ih =>
      obtain ⟨rest, rfl⟩ := ih
      exact ⟨_, rfl⟩
  obtain ⟨hwf, hnodes⟩ : w₀.leader.cgraph.Wf ∧ ∀ n ∈ w₀.leader.cgraph.infos, TookPart w₀ log n := by
    have hfirst := htold.applies [] _ rest hrest
    cases hfirst with
    | new hwf hnodes => exact ⟨hwf, hnodes⟩
  obtain ⟨o, ho, hsound, hport, hfollows⟩ := Orchestrator.new_follows hwf.indexed (hapart.distinct hwf hnodes)
    it emanagerPort maxLoad
  unfold build
  rw [ho, bind_ok]
  refine ⟨_, rfl, fun inputs m hm htaken => ?_⟩
  have hmirrors : m.Mirrors emanagerPort (replay (taken w₀.leader.cgraph inputs)) :=
    Mirrors.run hsent hapart ⟨hsound, hport, hfollows⟩ hm htaken
  have hfollow := hmirrors.follows
  unfold Orchestrator.Follows at hfollow
  rw [hmirrors.port] at hfollow
  refine ⟨⟨hmirrors.sound.rows.nodup, hmirrors.sound.rows.size, hfollow⟩, fun hall n => ?_,
    fun env update har hnext => ?_⟩
  · rw [hfollow n, hall]
    simp only [htold.nodes]
  · obtain ⟨later, hlater⟩ := hnext
    have heach := htold.applies
    rw [← hlater, each_append] at heach
    exact hmirrors.onUpdate_returns har hapart (each_snoc.mp heach.1).2

def demoMoves : List Cmanager.Move :=
  Cmanager.demoJoin 1 ++ [.nodeFailure (Cmanager.demoNode 1), .nodeFailure (Cmanager.demoNode 1)]

def demoMarks : List Cmanager.Mark :=
  [.requested (Cmanager.demoNode 1), .answered (Cmanager.demoNode 1), .updated (Cmanager.demoNode 1),
    .removed (Cmanager.demoNode 1)]

theorem cluster_mirrored_demo : ∃ w₀ log graph w m₀ m, Sent w₀ log
      [.new w₀.leader.cgraph, .new graph, .remove (Cmanager.demoNode 1)] w ∧
    (build .inOrder (demoHost 0 9090) 9091 9092 w₀.leader.cgraph 1 = .ok m₀ ∧
    m₀.acceptTopology [(demoEnv 50 [], .update (.new graph)),
      (demoEnv 50 [], .message ⟨1⟩ (.newTopology ""))] = .ok m) ∧
    (∀ n, n ∈ m.orchestrator.hostMapping ↔ n = demoHost 0 9092 ∨ n = demoHost 1 9092) ∧
    Returns (m.onUpdate { demoEnv 50 [] with ar := .exact } (.remove (Cmanager.demoNode 1))).result
      fun _ => True := by
  obtain ⟨leader, hleader, hfirst, ⟨w, hw, hlog⟩, w₁, -, hupdates, hinfos, m₀, hm₀, m, hm, -⟩ :
      Returns ((Cmanager.Ctrl.build Cmanager.demoConfig (Cmanager.demoNode 0) 100 true).createCluster
        .inOrder ⟨7⟩) fun leader => leader.cgraph.infos = [Cmanager.demoNode 0] ∧
          Returns ((Cmanager.demoWorld leader).run .inOrder demoMoves).result (fun _ =>
            ((Cmanager.demoWorld leader).run .inOrder demoMoves).log = demoMarks) ∧
          Returns ((Cmanager.demoWorld leader).run .inOrder (Cmanager.demoJoin 1)).result fun w₁ =>
            (Cmanager.demoWorld leader).updatesOf .inOrder demoMoves =
              [.new w₁.leader.cgraph, .remove (Cmanager.demoNode 1)] ∧
            w₁.leader.cgraph.infos.Perm [Cmanager.demoNode 0, Cmanager.demoNode 1] ∧
            Returns (build .inOrder (demoHost 0 9090) 9091 9092 leader.cgraph 1) fun m₀ =>
              Returns (m₀.acceptTopology [(demoEnv 50 [], .update (.new w₁.leader.cgraph)),
                (demoEnv 50 [], .message ⟨1⟩ (.newTopology ""))]) fun _ => True := by
    decide +kernel
  have hstart : (Cmanager.demoWorld leader).Initial :=
    ⟨⟨_, _, _, _, _, hleader⟩, fun n => ⟨rfl, rfl⟩, rfl, rfl, rfl⟩
  have hsent := (Sent.start hstart).run hw
  rw [hupdates, hlog, List.nil_append] at hsent
  have hapart : Apart (Cmanager.demoWorld leader) demoMarks := by
    have hnode : ∀ n, TookPart (Cmanager.demoWorld leader) demoMarks n →
        n = Cmanager.demoNode 0 ∨ n = Cmanager.demoNode 1 := by
      rintro n (hn | hn)
      · left
        have hn : n ∈ leader.cgraph.infos := hn
        rw [hfirst] at hn
        exact List.mem_singleton.mp hn
      · right
        simpa [demoMarks] using hn
    intro a b ha hb hip
    rcases hnode a ha with rfl | rfl <;> rcases hnode b hb with rfl | rfl <;> first | rfl | cases hip
  obtain ⟨_, hbuild, hrun⟩ := cluster_mirrored hsent hapart .inOrder (demoHost 0 9090) 9091 9092 1
  cases hbuild.symm.trans hm₀
  obtain ⟨⟨-, -, hhosts⟩, -, hnext⟩ := hrun _ m hm (by exact ⟨[.remove (Cmanager.demoNode 1)], rfl⟩)
  refine ⟨_, _, _, w, m₀, m, hsent, ⟨hm₀, hm⟩, fun n => ?_, hnext _ _ (by simp) (by exact ⟨[], rfl⟩)⟩
  rw [hhosts n]
  have hreplay : replay (taken leader.cgraph [(demoEnv 50 [], .update (.new w₁.leader.cgraph)),
      (demoEnv 50 [], .message ⟨1⟩ (.newTopology ""))]) = w₁.leader.cgraph.infos := rfl
  rw [show (Cmanager.demoWorld leader).leader.cgraph = leader.cgraph from rfl, hreplay]
  simp only [hinfos.mem_iff]
  simp [Cmanager.demoNode, demoHost]

end Pubapi

end Kollaps
