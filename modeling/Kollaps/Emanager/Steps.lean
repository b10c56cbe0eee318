import Kollaps.Emanager.Basic
import Mathlib.Data.List.Perm.Basic

/-!
# What a node can do

Every step of a node is one of the turns below, each with its marks.
-/

namespace Kollaps

open Run Act

namespace Emanager

open Emulcore (EmulCore)

namespace Machine

def Takes (m : Machine) (t : Task) (rest : List Task) : Prop := m.tasks.Perm (t :: rest)

def Runs (t : Task) (core : EmulCore) (leader : ClusterNodeInfo) (abortChannel : Nat) : Prop :=
  t = .synchronize core leader abortChannel ∨ t = .flowLoop core leader abortChannel

inductive Turn (m : Machine) : List Mark → Machine → Prop
  | new (leader : ClusterNodeInfo) (emul : Emulation) : Turn m [.new emul.uuid] { m with
      manager := { m.manager with clusterOmanager := some (m.manager.clusterOmanager.getD leader) }
      tasks := m.tasks ++ [.create emul (m.manager.clusterOmanager.getD leader)] }
  | delivered (id : Uuid) (h : m.manager.emulIdToChannel.contains id = true) : Turn m [.delivered id] m
  | discarded (id : Uuid) (h : m.manager.emulIdToChannel.contains id = false) : Turn m [.discarded id] m
  | stop (id : Uuid) : Turn m [.stop id] { m with
      manager := { m.manager with emulIdAbortChan := m.manager.emulIdAbortChan.remove id }
      aborts := m.aborts ++ (m.manager.emulIdAbortChan.lookup id).toList }
  | ready (id : Uuid) (leader : ClusterNodeInfo) : Turn m [.ready id] { m with
      manager := { m.manager with emulIdAbortChan := m.manager.emulIdAbortChan.put id m.channels }
      channels := m.channels + 1
      tasks := m.tasks ++ [.start id leader m.channels] }
  | built {emul : Emulation} {leader : ClusterNodeInfo} {rest : List Task} {core : EmulCore}
      (ht : m.Takes (.create emul leader) rest) (hid : core.emulId = emul.uuid) :
      Turn m [] { m with tasks := rest ++ [.init core] }
  | unbuilt {emul : Emulation} {leader : ClusterNodeInfo} {rest : List Task}
      (ht : m.Takes (.create emul leader) rest) : Turn m [.failed emul.uuid] { m with tasks := rest }
  | registered {core : EmulCore} {rest : List Task} (ht : m.Takes (.init core) rest) :
      Turn m [.registered core.emulId] { m with
        manager := { m.manager with emulIdToChannel := m.manager.emulIdToChannel.insert core.emulId }
        tasks := rest ++ [.bind core] }
  | failed {t : Task} {core : EmulCore} {rest : List Task} (tells : List Mark) (ht : m.Takes t rest)
      (hinit : t = .init core ∨ t = .bind core)
      (htells : ∀ e ∈ tells, e = .tell core.clusterLeader (.abort core.emulId)) :
      Turn m (.failed core.emulId :: tells) { m with tasks := rest ++ [.drop core.emulId] }
  | stored {core : EmulCore} {rest dropped : List Task} (ht : m.Takes (.bind core) rest)
      (hdropped : ∀ t ∈ dropped, t = .drop core.emulId) : Turn m [.stored core.emulId] { m with
        manager := { m.manager with
          emulIdToEmulcore := m.manager.emulIdToEmulcore.put core.emulId core }
        tasks := rest ++ dropped ++ [.announce core.emulId core.clusterLeader] }
  | announced {id : Uuid} {leader : ClusterNodeInfo} {rest : List Task} (ok : Bool)
      (ht : m.Takes (.announce id leader) rest) :
      Turn m [.tell leader (if ok then .emulationReady id m.manager.myself else .abort id)]
        { m with tasks := rest }
  | missing {id : Uuid} {leader : ClusterNodeInfo} {abortChannel : Nat} {rest : List Task}
      (ht : m.Takes (.start id leader abortChannel) rest)
      (hnone : m.manager.emulIdToEmulcore.lookup id = none) :
      Turn m [.started id] { m with tasks := rest }
  | entered {id : Uuid} {leader : ClusterNodeInfo} {abortChannel : Nat} {rest : List Task}
      {core : EmulCore} (ht : m.Takes (.start id leader abortChannel) rest)
      (hcore : m.manager.emulIdToEmulcore.lookup id = some core) :
      Turn m [.started id, .entered id] { m with
        manager := { m.manager with emulIdToEmulcore := m.manager.emulIdToEmulcore.remove id }
        tasks := rest ++ [.synchronize core leader abortChannel] }
  | synchronized {core : EmulCore} {leader : ClusterNodeInfo} {abortChannel : Nat} {rest : List Task}
      (ht : m.Takes (.synchronize core leader abortChannel) rest) :
      Turn m [] { m with tasks := rest ++ [.flowLoop core leader abortChannel] }
  | ended {t : Task} {core : EmulCore} {leader : ClusterNodeInfo} {abortChannel : Nat}
      {rest : List Task} (tells : List Mark) (ht : m.Takes t rest)
      (hrun : Runs t core leader abortChannel)
      (htells : ∀ e ∈ tells, e = .tell leader (.abort core.emulId)) :
      Turn m tells { m with tasks := rest ++ [.drop core.emulId] }
  | finished {core : EmulCore} {leader : ClusterNodeInfo} {abortChannel : Nat} {rest : List Task}
      (ht : m.Takes (.flowLoop core leader abortChannel) rest) : Turn m [] { m with
        manager := { m.manager with emulIdToChannel := m.manager.emulIdToChannel.remove core.emulId }
        tasks := rest ++ [.drop core.emulId] }
  | released {id : Uuid} {rest : List Task} (ht : m.Takes (.drop id) rest) : Turn m [.released id] { m with
        manager := { m.manager with emulIdToChannel := m.manager.emulIdToChannel.remove id }
        tasks := rest }

theorem takeTask_ok {m m' : Machine} {i : Nat} {t : Task} (h : m.takeTask i = .ok (t, m')) :
    ∃ rest, m.Takes t rest ∧ m' = { m with tasks := rest } := by
  unfold takeTask at h
  obtain ⟨t', ht, h⟩ := Run.of_bind_eq_ok h
  cases h
  obtain ⟨hi, rfl⟩ := List.getElem?_eq_some_iff.mp (get_eq_ok.mp ht)
  exact ⟨_, (List.getElem_cons_eraseIdx_perm hi).symm, rfl⟩

theorem new_emulId {it : Iter} {uuid : Uuid} {graph : Network Node} {myself leader : ClusterNodeInfo}
    {core : EmulCore} (h : Emulcore.new it uuid graph myself leader = .ok core) : core.emulId = uuid := by
  unfold Emulcore.new at h
  obtain ⟨⟨ipToApp, otherHosts⟩, -, h⟩ := Run.of_bind_eq_ok h
  cases h
  rfl

theorem receive_turn {m m' : Machine} {message : EManagerMessage}
    (h : (m.receive message).result = .ok m') : Turn m (m.receive message).log m' := by
  cases message with
  | experimentNew leader emul =>
    cases h
    exact .new leader emul
  | emulCoreInterchange id mess =>
    unfold receive onEmulCoreInterchange at h ⊢
    simp only at h ⊢
    split at h <;> rename_i hchannel
    · split at h <;> rename_i halive
      · rw [if_pos hchannel, if_pos halive]
        cases h
        exact .delivered id hchannel
      · cases h
    · rw [if_neg hchannel]
      cases h
      exact .discarded id (by simpa using hchannel)
  | experimentStop id =>
    unfold receive onExperimentStop at h ⊢
    simp only [KeySet.get?_eq_lookup] at h ⊢
    have hturn := Turn.stop (m := m) id
    cases hl : m.manager.emulIdAbortChan.lookup id with
    | none =>
      rw [hl] at h hturn
      cases h
      rwa [Option.toList_none, List.append_nil] at hturn
    | some abort =>
      rw [hl] at h hturn
      cases h
      exact hturn
  | experimentReady id =>
    unfold receive onExperimentReady at h ⊢
    simp only at h ⊢
    obtain ⟨leader, hleader, h, hlog⟩ := of_bind_eq_ok h
    rw [hlog]
    cases h
    exact .ready id leader

theorem runTask_turn {it : Iter} {m m' : Machine} {ok : Bool} {t : Task} {rest : List Task}
    (ht : m.Takes t rest)
    (h : (({ m with tasks := rest } : Machine).runTask it ok t).result = .ok m') :
    Turn m (({ m with tasks := rest } : Machine).runTask it ok t).log m' := by
  cases t with
  | create emul leader =>
    unfold runTask at h ⊢
    simp only at h ⊢
    cases hnew : Emulcore.new it emul.uuid emul.graph m.manager.myself leader with
    | ok core =>
      rw [hnew] at h
      cases h
      exact .built ht (new_emulId hnew)
    | error e =>
      rw [hnew] at h
      cases h
      exact .unbuilt ht
  | init core =>
    unfold runTask at h ⊢
    simp only at h ⊢
    cases ok with
    | false =>
      cases h
      exact .failed [.tell core.clusterLeader (.abort core.emulId)] ht (Or.inl rfl) (by simp)
    | true =>
      simp only [if_true] at h ⊢
      cases hinit : (Emulcore.initEmulation it core).result with
      | ok myApps =>
        rw [hinit] at h
        cases h
        exact .registered ht
      | error e =>
        rw [hinit] at h
        cases h
        exact .failed [] ht (Or.inl rfl) (by simp)
  | bind core =>
    unfold runTask at h ⊢
    simp only at h ⊢
    cases ok with
    | false =>
      cases h
      exact .failed [.tell core.clusterLeader (.abort core.emulId)] ht (Or.inr rfl) (by simp)
    | true =>
      simp only [if_true] at h ⊢
      cases h
      unfold store
      split
      · exact .stored ht (List.forall_mem_singleton.mpr rfl)
      · have h := Turn.stored ht (List.forall_mem_nil fun t => t = Task.drop core.emulId)
        rwa [List.append_nil] at h
  | announce id leader =>
    cases h
    exact .announced ok ht
  | start id leader abortChannel =>
    unfold runTask at h ⊢
    simp only [KeySet.get?_eq_lookup] at h ⊢
    cases hcore : m.manager.emulIdToEmulcore.lookup id with
    | none =>
      rw [hcore] at h
      cases h
      exact .missing ht hcore
    | some core =>
      rw [hcore] at h
      cases h
      exact .entered ht hcore
  | synchronize core leader abortChannel =>
    unfold runTask at h ⊢
    cases ok with
    | true =>
      cases h
      exact .synchronized ht
    | false =>
      cases h
      exact .ended [.tell leader (.abort core.emulId)] ht (Or.inl rfl) (by simp)
  | flowLoop core leader abortChannel =>
    unfold runTask at h ⊢
    cases ok with
    | true =>
      cases h
      exact .finished ht
    | false =>
      cases h
      exact .ended [.tell leader (.abort core.emulId)] ht (Or.inr rfl) (by simp)
  | drop id =>
    cases h
    exact .released ht

theorem takeAbort_turn {m m' : Machine} {t : Task} {rest : List Task} (ht : m.Takes t rest)
    (h : (({ m with tasks := rest } : Machine).takeAbort t).result = .ok m') :
    Turn m (({ m with tasks := rest } : Machine).takeAbort t).log m' := by
  cases t with
  | synchronize core leader abortChannel =>
    unfold takeAbort at h ⊢
    simp only at h ⊢
    split at h <;> rename_i hc
    · rw [if_pos hc]
      cases h
      exact .ended [] ht (Or.inl rfl) (by simp)
    · cases h
  | flowLoop core leader abortChannel =>
    unfold takeAbort at h ⊢
    simp only at h ⊢
    split at h <;> rename_i hc
    · rw [if_pos hc]
      cases h
      exact .ended [] ht (Or.inr rfl) (by simp)
    · cases h
  | _ => cases h

theorem step_turn {m m' : Machine} {x : Iter × Move} (h : (m.step x).result = .ok m') :
    Turn m (m.step x).log m' := by
  obtain ⟨it, move⟩ := x
  cases move with
  | receive message => exact receive_turn h
  | task i ok =>
    unfold step at h ⊢
    obtain ⟨⟨t, m₁⟩, htake, h, hlog⟩ := of_bind_eq_ok h
    rw [hlog]
    obtain ⟨rest, ht, rfl⟩ := takeTask_ok htake
    exact runTask_turn ht h
  | abort i =>
    unfold step at h ⊢
    obtain ⟨⟨t, m₁⟩, htake, h, hlog⟩ := of_bind_eq_ok h
    rw [hlog]
    obtain ⟨rest, ht, rfl⟩ := takeTask_ok htake
    exact takeAbort_turn ht h

end Machine

end Emanager

end Kollaps
