import Kollaps.Cmanager.World

/-!
# What one step can do

`Stepped` lists the outcomes of a move, each with its marks and the world after it.
-/

namespace Kollaps

open Run Act Cgraph

namespace Cmanager

namespace Phase

def isIdle : Phase → Bool
  | off | waiting | joined | stopped => true
  | _ => false

def isInside : Phase → Bool
  | accepted _ _ | asked _ | completing _ => true
  | _ => false

end Phase

def Event.isLast : Event → Bool
  | .cGraphUpdate _ | .cjqAbort => true
  | _ => false

def Event.isJoining (e : Event) : Prop := e = .cGraphGet ∨ e.isLast = true

inductive Stepped (it : Iter) (w : World) : Move → List Mark → World → Prop
  | request {m : Move} {n : ClusterNodeInfo} {ctrl : Ctrl} {k : Nat}
      (hidle : (w.phase n).isIdle = true) (hinfo : ctrl.myInfo = (w.peers n).ctrl.myInfo) :
      Stepped it w m [.requested n] (w.sendClusterJoiningRequest n ctrl k)
  | giveUp {n : ClusterNodeInfo} (hphase : w.phase n = .waiting) :
      Stepped it w (.retry n) [] (w.setPhase n .stopped)
  | timeout {n : ClusterNodeInfo} {r : Nat} (hphase : w.phase n = .pending r) :
      Stepped it w (.timeout n) [] (w.setPhase n .waiting)
  | wait {i seconds : Nat} {b : Binding} {info : ClusterNodeInfo}
      (hd : w.datagrams[i]? = some ⟨b, .cjqRequest info⟩) (hadding : w.leader.addingNewNode = true) :
      Stepped it w (.deliver i) []
        { w with datagrams := w.datagrams.eraseIdx i ++ [⟨b, .cjqResponse (.wait seconds)⟩] }
  | accept {i : Nat} {b : Binding} {info : ClusterNodeInfo} {misses : MissMap} {id : Uuid}
      (hd : w.datagrams[i]? = some ⟨b, .cjqRequest info⟩) (hadding : w.leader.addingNewNode = false) :
      Stepped it w (.deliver i) []
        { w with
          leader := { w.leader with heartbeatMisses := misses, addingNewNode := true }
          datagrams := w.datagrams.eraseIdx i ++
            [⟨b, .cjqResponse (.accepted w.leader.myInfo id)⟩] }
  | hearAccepted {i k : Nat} {b : Binding} {leader : ClusterNodeInfo} {id : Uuid}
      (hd : w.datagrams[i]? = some ⟨b, .cjqResponse (.accepted leader id)⟩)
      (hphase : w.phase b.node = .pending b.request) :
      Stepped it w (.deliver i) []
        { w.setPeer b.node ⟨(w.peers b.node).ctrl, k, .accepted leader id⟩ with
          datagrams := w.datagrams.eraseIdx i }
  | hearWait {i k seconds : Nat} {b : Binding}
      (hd : w.datagrams[i]? = some ⟨b, .cjqResponse (.wait seconds)⟩)
      (hphase : w.phase b.node = .pending b.request) :
      Stepped it w (.deliver i) []
        { w.setPeer b.node ⟨(w.peers b.node).ctrl, k, .waiting⟩ with
          datagrams := w.datagrams.eraseIdx i }
  | lose {i : Nat} {d : Datagram} (hd : w.datagrams[i]? = some d) :
      Stepped it w (.lose i) [] { w with datagrams := w.datagrams.eraseIdx i }
  | unheard {i : Nat} {d : Datagram} (hd : w.datagrams[i]? = some d)
      (hphase : ∀ kind, d.event = .cjqResponse kind → w.phase d.binding.node ≠ .pending d.binding.request) :
      Stepped it w (.deliver i) [] { w with datagrams := w.datagrams.eraseIdx i }
  | duplicate {i : Nat} {d : Datagram} (hd : w.datagrams[i]? = some d) :
      Stepped it w (.duplicate i) [] { w with datagrams := w.datagrams ++ [d] }
  | askGraph {n leader : ClusterNodeInfo} {id : Uuid} (hphase : w.phase n = .accepted leader id) :
      Stepped it w (.askGraph n) [] ((w.setPhase n (.asked id)).connect n .cGraphGet)
  | failToAsk {n leader : ClusterNodeInfo} {id : Uuid} (hphase : w.phase n = .accepted leader id) :
      Stepped it w (.failToAsk n) [] ((w.setPhase n .waiting).connect n .cjqAbort)
  | sendGraph {i : Nat} {n : ClusterNodeInfo} (hi : w.connections[i]? = some (n, .cGraphGet)) :
      Stepped it w (.serve i) [.answered n]
        { w with
          connections := w.connections.eraseIdx i
          answers := w.answers ++ [(n, .cGraphSend w.leader.cgraph)] }
  | update {i : Nat} {n : ClusterNodeInfo} {graph : WCGraph}
      (hi : w.connections[i]? = some (n, .cGraphUpdate graph)) :
      Stepped it w (.serve i) [.updated n]
        { w with
          leader := { w.leader with addingNewNode := false, cgraph := graph }
          connections := w.connections.eraseIdx i }
  | abort {i : Nat} {n : ClusterNodeInfo} (hi : w.connections[i]? = some (n, .cjqAbort)) :
      Stepped it w (.serve i) []
        { w with
          leader := { w.leader with addingNewNode := false }
          connections := w.connections.eraseIdx i }
  | receiveGraph {i : Nat} {n : ClusterNodeInfo} {graph : WCGraph} {id : Uuid}
      (hi : w.answers[i]? = some (n, .cGraphSend graph)) (hphase : w.phase n = .asked id) :
      Stepped it w (.receiveGraph i) []
        { w.setPeer n { w.peers n with
            ctrl := { (w.peers n).ctrl with cgraph := graph }
            phase := .completing id } with
          answers := w.answers.eraseIdx i }
  | complete {n : ClusterNodeInfo} {fuel : Nat} {its : Nat → Iter}
      {attempt : ClusterNodeInfo → Nat → Option Nat} {id : Uuid} {ctrl : Ctrl}
      (hphase : w.phase n = .completing id)
      (hctrl : (w.peers n).ctrl.completeGraph fuel its attempt = .ok ctrl) :
      Stepped it w (.complete n fuel its attempt) []
        ((w.setPeer n { w.peers n with
          ctrl := { ctrl with clusterId := some id }
          phase := .joined }).connect n (.cGraphUpdate ctrl.cgraph))
  | failToComplete {n : ClusterNodeInfo} {fuel : Nat} {its : Nat → Iter}
      {attempt : ClusterNodeInfo → Nat → Option Nat} {id : Uuid} (hphase : w.phase n = .completing id) :
      Stepped it w (.complete n fuel its attempt) [] ((w.setPhase n .waiting).connect n .cjqAbort)
  | missed {m : Move} {misses : MissMap} :
      Stepped it w m [] { w with leader := { w.leader with heartbeatMisses := misses } }
  | removed {info : ClusterNodeInfo} {misses : MissMap} {cgraph : WCGraph}
      (hgraph : w.leader.cgraph.removeOneBy it (fun n => n.info = info) = .ok cgraph) :
      Stepped it w (.nodeFailure info) [.removed info]
        { w with leader := { w.leader with cgraph, heartbeatMisses := misses } }

namespace World

variable {w w' : World}

theorem lead_ok {program : Act Effect Ctrl} {r : World × List Event}
    (h : (w.lead program).result = .ok r) :
    ∃ leader, program.result = .ok leader ∧ r = ({ w with leader }, replies program.log) ∧
      (w.lead program).log = removals program.log := by
  unfold lead at h ⊢
  obtain ⟨leader, hleader, h, hlog⟩ := of_bind_eq_ok h
  rw [hlog]
  rw [forM_emit] at h ⊢
  cases h
  exact ⟨leader, hleader, rfl, by simp [bind_of_ok]⟩

theorem start_ok {it : Iter} {n : ClusterNodeInfo} (h : (w.start n).result = .ok w') :
    Stepped it w (.start n) (w.start n).log w' := by
  unfold start at h ⊢
  cases hphase : w.phase n <;> rw [hphase] at h <;> cases h
  all_goals exact .request (by simp [hphase, Phase.isIdle]) rfl

theorem retry_ok {it : Iter} {n : ClusterNodeInfo} (h : (w.retry n).result = .ok w') :
    Stepped it w (.retry n) (w.retry n).log w' := by
  unfold retry at h ⊢
  split at h
  · rename_i hphase
    split at h <;> rename_i hretries
    · rw [if_pos hretries]
      cases h
      exact .request (by simp [hphase, Phase.isIdle]) rfl
    · rw [if_neg hretries]
      cases h
      exact .giveUp hphase
  · cases h

theorem timeout_ok {it : Iter} {n : ClusterNodeInfo} (h : (w.timeout n).result = .ok w') :
    Stepped it w (.timeout n) (w.timeout n).log w' := by
  unfold timeout at h ⊢
  split at h
  · rename_i hphase
    cases h
    exact .timeout hphase
  · cases h

theorem askGraph_ok {it : Iter} {n : ClusterNodeInfo} (h : (w.askGraph n).result = .ok w') :
    Stepped it w (.askGraph n) (w.askGraph n).log w' := by
  unfold askGraph at h ⊢
  split at h
  · rename_i hphase
    cases h
    exact .askGraph hphase
  · cases h

theorem failToAsk_ok {it : Iter} {n : ClusterNodeInfo} (h : (w.failToAsk n).result = .ok w') :
    Stepped it w (.failToAsk n) (w.failToAsk n).log w' := by
  unfold failToAsk at h ⊢
  split at h
  · rename_i hphase
    cases h
    exact .failToAsk hphase
  · cases h

theorem deliver_ok {it : Iter} {i : Nat} (hl : w.leader.isLeader = true)
    (h : (w.deliver i).result = .ok w') : Stepped it w (.deliver i) (w.deliver i).log w' := by
  unfold deliver at h ⊢
  obtain ⟨⟨b, event⟩, hd, h, hlog⟩ := of_bind_eq_ok h
  rw [hlog]
  rw [result_lift, get_eq_ok] at hd
  cases event with
  | cjqRequest info =>
    obtain ⟨r, hr, h, hlog⟩ := of_bind_eq_ok h
    rw [hlog]
    obtain ⟨leader, hleader, rfl, hlead⟩ := lead_ok hr
    rw [hlead]
    cases h
    cases hadding : w.leader.addingNewNode with
    | true =>
      have hspec := Ctrl.onCJQRequest_adding hl hadding info
      simp only at hleader ⊢
      rw [hspec] at hleader ⊢
      cases hleader
      exact .wait hd hadding
    | false =>
      obtain ⟨misses, id, hid, rfl, hreply⟩ := Ctrl.onCJQRequest_free hl hadding hleader
      simp only at hreply ⊢
      rw [hreply]
      exact .accept hd hadding
  | cjqResponse kind =>
    cases h
    show Stepped it w (.deliver i) [] (hear _ b kind)
    unfold hear
    split <;> rename_i hphase
    · cases kind with
      | accepted leader id => exact .hearAccepted hd hphase
      | wait seconds => exact .hearWait hd hphase
    · exact .unheard hd fun kind _ => hphase
  | _ =>
    cases h
    exact .unheard hd fun kind hkind => by cases hkind

theorem serve_ok {it : Iter} {i : Nat} (hl : w.leader.isLeader = true)
    (hc : ∀ p ∈ w.connections, p.2.isJoining) (h : (w.serve it i).result = .ok w') :
    Stepped it w (.serve i) (w.serve it i).log w' := by
  unfold serve at h ⊢
  obtain ⟨⟨n, event⟩, hi, h, hlog⟩ := of_bind_eq_ok h
  rw [hlog]
  rw [result_lift, get_eq_ok] at hi
  obtain ⟨-, -, h, hlog⟩ := of_bind_eq_ok h
  rw [hlog]
  obtain ⟨r, hr, h, hlog⟩ := of_bind_eq_ok h
  rw [hlog]
  obtain ⟨leader, hleader, rfl, hlead⟩ := lead_ok hr
  rw [hlead]
  cases h
  have hjoining := hc _ (List.mem_of_getElem? hi)
  cases event with
  | cGraphGet =>
    cases hleader
    exact .sendGraph hi
  | cGraphUpdate graph =>
    have hspec := Ctrl.onCGraphUpdate_spec hl graph
    simp only [Ctrl.handle, hspec] at hleader ⊢
    cases hleader
    simp only [served, replies, removals, List.filterMap, List.map_nil, List.append_nil]
    exact .update hi
  | cjqAbort =>
    cases hleader
    show Stepped it w (.serve i) []
      { w with
        leader := { w.leader with addingNewNode := false }
        connections := w.connections.eraseIdx i
        answers := w.answers ++ [] }
    rw [List.append_nil]
    exact .abort hi
  | _ => simp [Event.isJoining, Event.isLast] at hjoining

theorem receiveGraph_ok {it : Iter} {i : Nat} (h : (w.receiveGraph i).result = .ok w') :
    Stepped it w (.receiveGraph i) (w.receiveGraph i).log w' := by
  unfold receiveGraph at h ⊢
  obtain ⟨⟨n, event⟩, hi, h, hlog⟩ := of_bind_eq_ok h
  rw [hlog]
  simp only at h ⊢
  split at h
  · rename_i graph id hphase
    cases h
    exact .receiveGraph (get_eq_ok.mp hi) hphase
  · cases h

theorem complete_ok {it : Iter} {n : ClusterNodeInfo} {fuel : Nat} {its : Nat → Iter}
    {attempt : ClusterNodeInfo → Nat → Option Nat} (h : (w.complete n fuel its attempt).result = .ok w') :
    Stepped it w (.complete n fuel its attempt) (w.complete n fuel its attempt).log w' := by
  unfold complete at h ⊢
  split at h
  · rename_i hphase
    simp only at h ⊢
    split at h
    · rename_i hctrl
      cases h
      exact .complete hphase hctrl
    · cases h
      exact .failToComplete hphase
    · cases h
  · cases h

theorem nodeFailure_ok {it : Iter} {info : ClusterNodeInfo} (hl : w.leader.isLeader = true)
    (h : (w.nodeFailure it info).result = .ok w') :
    Stepped it w (.nodeFailure info) (w.nodeFailure it info).log w' := by
  unfold nodeFailure at h ⊢
  obtain ⟨r, hr, h, hlog⟩ := of_bind_eq_ok h
  rw [hlog]
  obtain ⟨leader, hleader, rfl, hlead⟩ := lead_ok hr
  rw [hlead]
  cases h
  have hspec := Ctrl.onNodeFailure_spec hl hleader
  generalize (w.leader.onNodeFailure it info).log = log at hspec ⊢
  cases hspec with
  | counted misses => exact .missed
  | removed misses cgraph hgraph => exact .removed hgraph

theorem step_ok {it : Iter} {m : Move} (hl : w.leader.isLeader = true)
    (hc : ∀ p ∈ w.connections, p.2.isJoining) (h : (w.step it m).result = .ok w') :
    Stepped it w m (w.step it m).log w' := by
  cases m with
  | start n => exact start_ok h
  | deliver i => exact deliver_ok hl h
  | lose i =>
    obtain ⟨d, hd, h, hlog⟩ := of_bind_eq_ok (m := liftM (Run.get w.datagrams i)) h
    cases h
    exact hlog ▸ .lose (get_eq_ok.mp hd)
  | duplicate i =>
    obtain ⟨d, hd, h, hlog⟩ := of_bind_eq_ok (m := liftM (Run.get w.datagrams i)) h
    cases h
    exact hlog ▸ .duplicate (get_eq_ok.mp hd)
  | timeout n => exact timeout_ok h
  | retry n => exact retry_ok h
  | askGraph n => exact askGraph_ok h
  | failToAsk n => exact failToAsk_ok h
  | serve i => exact serve_ok hl hc h
  | receiveGraph i => exact receiveGraph_ok h
  | complete n fuel its attempt => exact complete_ok h
  | nodeFailure info => exact nodeFailure_ok hl h
  | heartbeatReset =>
    cases h
    exact .missed

end World

end Cmanager

end Kollaps
