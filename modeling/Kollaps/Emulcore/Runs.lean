import Kollaps.Bwsync.Departure
import Kollaps.Emulcore.Basic

/-!
# Runs of a core

The configurations that a core goes through, and what holds between two messages.
-/

namespace Kollaps

open Run Act

namespace Emulcore

inductive Phase where
  | running (s : Loop)
  | done (s : Loop)
  | failed

structure Config where
  phase : Phase
  log : List Effect

/-- One message, in any order of the hash sets. What was done before a fault was done. -/
inductive Step (ar : Arith) (core : EmulCore) (ok : Loop → EmulMessage → Prop) :
    Config → Config → Prop where
  | next {s s' : Loop} {m : EmulMessage} {log : List Effect} (it : Iter) :
      ok s m → (flowRound it ar core s m).result = .ok (.inl s') →
        Step ar core ok ⟨.running s, log⟩ ⟨.running s', log ++ (flowRound it ar core s m).log⟩
  | stop {s s' : Loop} {m : EmulMessage} {log : List Effect} (it : Iter) :
      ok s m → (flowRound it ar core s m).result = .ok (.inr s') →
        Step ar core ok ⟨.running s, log⟩ ⟨.done s', log ++ (flowRound it ar core s m).log⟩
  | fail {s : Loop} {m : EmulMessage} {log : List Effect} {e : Fault} (it : Iter) :
      ok s m → (flowRound it ar core s m).result = .error e →
        Step ar core ok ⟨.running s, log⟩ ⟨.failed, log ++ (flowRound it ar core s m).log⟩

inductive Init (g : Network Node) : EmulCore → Config → Prop where
  | mk {uuid : Uuid} {myself clusterLeader : ClusterNodeInfo} {core : EmulCore} {apps : AppMap}
      (it : Iter) : new it uuid g myself clusterLeader = .ok core →
      (initEmulation it core).result = .ok apps →
        Init g core ⟨.running (start core apps), (initEmulation it core).log⟩

/-- The configurations that a core reaches, each message meeting `ok`. -/
def Reach (ar : Arith) (g : Network Node) (ok : Loop → EmulMessage → Prop) (core : EmulCore)
    (c : Config) : Prop :=
  ∃ c₀, Init g core c₀ ∧ Relation.ReflTransGen (Step ar core ok) c₀ c

/-! ## The core -/

/-- The node is an application of the network, with this address. -/
def Located (g : Network Node) (n : Node) (ip : IpAddr) : Prop :=
  n ∈ g.mapper.elems.map Prod.fst ∧ ∃ id app, n = .app id app ∧ app.ipApp = some ip

def IsHost (g : Network Node) (host : ClusterNodeInfo) : Prop :=
  ∃ id app, .app id app ∈ g.mapper.elems.map Prod.fst ∧ app.hostOpt = some host

theorem Located.asApp {g : Network Node} {n : Node} {ip : IpAddr} (h : Located g n ip) :
    ∃ app, n.asApp = .ok app ∧ app.ipAddr = .ok ip := by
  obtain ⟨-, id, app, rfl, hip⟩ := h
  exact ⟨app, rfl, by rw [Application.ipAddr, hip, unwrap_some]⟩

theorem Located.unique {g : Network Node} {n : Node} {ip ip' : IpAddr} (h : Located g n ip)
    (h' : Located g n ip') : ip = ip' := by
  obtain ⟨-, _, app, rfl, hip⟩ := h
  obtain ⟨-, _, _, heq, hip'⟩ := h'
  cases heq
  exact Option.some.inj (hip.symm.trans hip')

theorem Located.eq_of_id {g : Network Node} {a b : Node} {ip ip' : IpAddr} (ha : Located g a ip)
    (hb : Located g b ip') (h : Vertex.id a = Vertex.id b) : a = b := by
  obtain ⟨p, hp, rfl⟩ := List.mem_map.mp ha.1
  obtain ⟨q, hq, rfl⟩ := List.mem_map.mp hb.1
  rw [KeySet.eq_of_key_eq g.mapper hp hq h]

theorem runsOn_of_hostOpt {app : Application} {host : ClusterNodeInfo} (h : app.hostOpt = some host)
    (node : ClusterNodeInfo) : app.runsOn node = .ok (decide (host = node)) := by
  rw [Application.runsOn, h, unwrap_some, bind_ok]
  rfl

/-- What `new` makes sure of. -/
structure CoreInv (g : Network Node) (core : EmulCore) : Prop where
  graph : core.graph = g
  located : ∀ p ∈ core.ipToApp.elems, Located g p.2 p.1
  complete : ∀ n ip, Located g n ip → core.ipToApp.contains ip = true
  others : ∀ h, h ∈ core.otherHosts.elems ↔ IsHost g h ∧ h ≠ core.myself
  placed : ∀ id app, .app id app ∈ g.mapper.elems.map Prod.fst → ∃ host, app.hostOpt = some host

theorem mem_put_ip {m : IpMap} {ip : IpAddr} {node : Node} {p : IpAddr × Node}
    (hp : p ∈ (m.put ip node).elems) : p = (ip, node) ∨ p ∈ m.elems := by
  unfold KeySet.put at hp
  cases hold : m.get? (id ip) with
  | none =>
    rw [hold, KeySet.mem_replace] at hp
    exact hp.imp (fun h => h) And.left
  | some old =>
    have hk : old.1 = ip := KeySet.key_of_get? hold
    rw [hold, KeySet.mem_replace] at hp
    exact hp.imp (fun h => by rw [h, hk]) And.left

theorem mem_apps {it : Iter} {g : Network Node} {n : Node} :
    n ∈ (g.vertices it).filter Node.isApp ↔ n ∈ g.mapper.elems.map Prod.fst ∧ n.isApp = true := by
  rw [List.mem_filter, Network.vertices, ((it.perm _).map _).mem_iff]

theorem ipToApp_inv {g : Network Node} {apps : List Node} {ips : IpMap}
    (happs : ∀ n ∈ apps, n ∈ g.mapper.elems.map Prod.fst)
    (h : apps.foldlM (fun (acc : IpMap) node => do
      let app ← node.asApp
      pure (acc.put (← app.ipAddr) node)) KeySet.empty = (.ok ips : Run IpMap)) :
    (∀ p ∈ ips.elems, Located g p.2 p.1) ∧
      ∀ n ∈ apps, ∀ ip, Located g n ip → ips.contains ip = true := by
  refine foldlM_ok_done (fun pre (acc : IpMap) => (∀ p ∈ acc.elems, Located g p.2 p.1) ∧
    ∀ n ∈ pre, ∀ ip, Located g n ip → acc.contains ip = true) (by simp) ?_ h
  rintro pre node post acc acc' hx ⟨hloc, hall⟩ hstep
  obtain ⟨app, happ, hstep⟩ := of_bind_eq_ok hstep
  obtain ⟨ip, hip, hstep⟩ := of_bind_eq_ok hstep
  cases hstep
  have hnode : Located g node ip := by
    refine ⟨happs node (by rw [hx]; simp), ?_⟩
    cases node with
    | bridge id => cases happ
    | app id _ =>
      cases happ
      exact ⟨id, _, rfl, unwrap_eq_ok.mp hip⟩
  refine ⟨fun p hp => ?_, fun n hn ip' hl => ?_⟩
  · rcases mem_put_ip hp with rfl | hp
    · exact hnode
    · exact hloc p hp
  · rw [KeySet.contains, KeySet.get?_put]
    split
    · rfl
    · rename_i hne
      rw [List.mem_append, List.mem_singleton] at hn
      rcases hn with hn | rfl
      · exact hall n hn ip' hl
      · obtain ⟨app₁, h₁, h₂⟩ := hl.asApp
        cases happ.symm.trans h₁
        exact absurd (Except.ok.inj (h₂.symm.trans hip)) hne

theorem otherHosts_inv {myself : ClusterNodeInfo} {apps : List Node} {hosts : HostSet}
    (h : apps.foldlM (fun (acc : HostSet) node => do
      let app ← node.asApp
      if ← app.runsOn myself then pure acc
      else pure (acc.insert (← app.host))) KeySet.empty = (.ok hosts : Run HostSet)) :
    (∀ host, host ∈ hosts.elems ↔
      (∃ id app, .app id app ∈ apps ∧ app.hostOpt = some host) ∧ host ≠ myself) ∧
    ∀ id app, .app id app ∈ apps → ∃ host, app.hostOpt = some host := by
  refine foldlM_ok_done (fun pre (acc : HostSet) => (∀ host, host ∈ acc.elems ↔
    (∃ id app, .app id app ∈ pre ∧ app.hostOpt = some host) ∧ host ≠ myself) ∧
    ∀ id app, .app id app ∈ pre → ∃ host, app.hostOpt = some host) (by simp) ?_ h
  rintro pre node post acc acc' - ⟨hacc, hplaced⟩ hstep
  obtain ⟨app, happ, hstep⟩ := of_bind_eq_ok hstep
  obtain ⟨here, hhere, hstep⟩ := of_bind_eq_ok hstep
  cases node with
  | bridge id => cases happ
  | app id app' =>
    cases happ
    obtain ⟨host, hhost, hhere⟩ := of_bind_eq_ok hhere
    have hopt : app.hostOpt = some host := unwrap_eq_ok.mp hhost
    cases hhere
    refine ⟨fun host' => ?_, fun id' app' hin => ?_⟩
    · have hlast : (∃ id' app', (.app id' app' : Node) ∈ pre ++ [.app id app] ∧
          app'.hostOpt = some host') ↔
          (∃ id' app', (.app id' app' : Node) ∈ pre ∧ app'.hostOpt = some host') ∨ host' = host := by
        simp only [List.mem_append, List.mem_singleton, Node.app.injEq]
        constructor
        · rintro ⟨id', app', hin | ⟨rfl, rfl⟩, hopt'⟩
          · exact Or.inl ⟨id', app', hin, hopt'⟩
          · exact Or.inr (Option.some.inj (hopt'.symm.trans hopt))
        · rintro (⟨id', app', hin, hopt'⟩ | rfl)
          · exact ⟨id', app', Or.inl hin, hopt'⟩
          · exact ⟨id, app, Or.inr ⟨rfl, rfl⟩, hopt⟩
      rw [hlast]
      by_cases hmyself : host = myself
      · rw [decide_eq_true hmyself] at hstep
        cases hstep
        rw [hacc, ← hmyself]
        constructor
        · exact fun h => ⟨Or.inl h.1, h.2⟩
        · exact fun h => ⟨h.1.resolve_right h.2, h.2⟩
      · rw [decide_eq_false hmyself] at hstep
        simp only [Bool.false_eq_true, if_false, Application.host, hopt, unwrap_some, bind_ok] at hstep
        cases hstep
        rw [KeySet.mem_insert_iff, hacc]
        constructor
        · rintro (h | rfl)
          · exact ⟨Or.inl h.1, h.2⟩
          · exact ⟨Or.inr rfl, hmyself⟩
        · rintro ⟨h | h, hne⟩
          · exact Or.inl ⟨h, hne⟩
          · exact Or.inr h
    · rw [List.mem_append, List.mem_singleton] at hin
      rcases hin with hin | hin
      · exact hplaced id' app' hin
      · cases hin
        exact ⟨host, hopt⟩

theorem new_inv {it : Iter} {uuid : Uuid} {g : Network Node} {myself clusterLeader : ClusterNodeInfo}
    {core : EmulCore} (h : new it uuid g myself clusterLeader = .ok core) :
    CoreInv g core ∧ core.myself = myself := by
  obtain ⟨⟨ips, hosts⟩, hparse, h⟩ := of_bind_eq_ok h
  cases h
  obtain ⟨hosts', hhosts, hparse⟩ := of_bind_eq_ok hparse
  obtain ⟨ips', hips, hparse⟩ := of_bind_eq_ok hparse
  cases hparse
  obtain ⟨hloc, hall⟩ := ipToApp_inv (fun n hn => (mem_apps.mp hn).1) hips
  obtain ⟨hother, hplaced⟩ := otherHosts_inv hhosts
  refine ⟨⟨rfl, hloc, fun n ip hl => ?_, fun host => ?_, fun id app hin => ?_⟩, rfl⟩
  · obtain ⟨hmem, id, app, rfl, -⟩ := id hl
    exact hall _ (mem_apps.mpr ⟨hmem, rfl⟩) ip hl
  · refine (hother host).trans (and_congr_left fun _ => exists_congr fun id => exists_congr fun app => ?_)
    exact and_congr_left fun _ => mem_apps.trans (and_iff_left rfl)
  · exact hplaced id app (mem_apps.mpr ⟨hin, rfl⟩)

theorem initEmulation_does (it : Iter) (core : EmulCore) {P : Effect → Prop}
    (h : ∀ node conf, P (.toReporter node (.tcInit conf))) :
    Does (initEmulation it core) P fun _ => True := by
  unfold initEmulation
  refine Does.bind_lift fun mine _ => ?_
  refine Does.bind_lift fun _ _ => ?_
  refine Does.foldlM (fun apps node _ _ => ?_) trivial
  refine Does.bind_lift fun app _ => ?_
  refine Does.bind_lift fun ip _ => ?_
  exact (Does.emit (Q := fun _ => True) (h _ _) trivial).bind fun _ _ => Does.pure trivial

theorem mem_put {m : AppMap} {node : Node} {status : AppStatus} {p : Node × AppStatus}
    (hp : p ∈ (m.put node status).elems) :
    (Vertex.id p.1 = Vertex.id node ∧ p.2 = status ∧ (p.1 = node ∨ ∃ q ∈ m.elems, q.1 = p.1)) ∨
      p ∈ m.elems := by
  unfold KeySet.put at hp
  cases hold : m.get? (Vertex.id node) with
  | none =>
    rw [hold, KeySet.mem_replace] at hp
    rcases hp with rfl | hp
    · exact Or.inl ⟨rfl, rfl, Or.inl rfl⟩
    · exact Or.inr hp.1
  | some old =>
    obtain ⟨hmem, hk⟩ := KeySet.get?_eq_some.mp hold
    rw [hold, KeySet.mem_replace] at hp
    rcases hp with rfl | hp
    · exact Or.inl ⟨hk, rfl, Or.inr ⟨old, hmem, rfl⟩⟩
    · exact Or.inr hp.1

theorem contains_put {m : AppMap} {node : Node} {status : AppStatus} {k : Vertex.Id Node}
    (h : m.contains k = true ∨ k = Vertex.id node) : (m.put node status).contains k = true := by
  rw [KeySet.contains, KeySet.get?_put]
  split <;> rename_i hk
  · rfl
  · exact h.resolve_right hk

theorem initEmulation_apps {it : Iter} {core : EmulCore} {apps : AppMap}
    (h : (initEmulation it core).result = .ok apps) :
    (∀ p ∈ apps.elems, p.2 = .notInit ∧ p.1 ∈ core.graph.mapper.elems.map Prod.fst ∧
      p.1.isApp = true) ∧
    ∀ n ∈ core.graph.mapper.elems.map Prod.fst, core.hosts n = .ok true →
      apps.contains (Vertex.id n) = true := by
  obtain ⟨mine, hmine, h, -⟩ := Act.of_bind_eq_ok h
  obtain ⟨_, -, h, -⟩ := Act.of_bind_eq_ok h
  have hmem : ∀ n, n ∈ it.order mine ↔
      n ∈ core.graph.mapper.elems.map Prod.fst ∧ core.hosts n = .ok true := by
    intro n
    rw [it.mem_order, mem_filterM hmine, Network.vertices, ((it.perm _).map _).mem_iff]
  have happ : ∀ n ∈ it.order mine, n.isApp = true := by
    intro n hn
    have hhosts := ((hmem n).mp hn).2
    unfold EmulCore.hosts at hhosts
    split at hhosts
    · assumption
    · cases hhosts
  have hfold : (∀ p ∈ apps.elems, p.2 = .notInit ∧ p.1 ∈ it.order mine) ∧
      ∀ n ∈ it.order mine, apps.contains (Vertex.id n) = true := by
    refine Act.foldlM_ok_inv (fun pre (acc : AppMap) =>
      (∀ p ∈ acc.elems, p.2 = .notInit ∧ p.1 ∈ it.order mine) ∧
      ∀ n ∈ pre, acc.contains (Vertex.id n) = true) (by simp) ?_ h
    rintro pre node post acc acc' hx ⟨hall, hin⟩ hstep
    obtain ⟨_, -, hstep, -⟩ := Act.of_bind_eq_ok hstep
    obtain ⟨_, -, hstep, -⟩ := Act.of_bind_eq_ok hstep
    cases hstep
    refine ⟨fun p hp => ?_, fun n hn => contains_put ?_⟩
    · rcases mem_put hp with ⟨-, hst, hnode | ⟨q, hq, hqp⟩⟩ | hp
      · exact ⟨hst, by rw [hnode, hx]; simp⟩
      · exact ⟨hst, hqp ▸ (hall q hq).2⟩
      · exact hall p hp
    · rcases List.mem_append.mp hn with hn | hn
      · exact Or.inl (hin n hn)
      · exact Or.inr (by rw [List.mem_singleton.mp hn])
  refine ⟨fun p hp => ?_, fun n hn hhosts => hfold.2 n ((hmem n).mpr ⟨hn, hhosts⟩)⟩
  obtain ⟨hst, hin⟩ := hfold.1 p hp
  exact ⟨hst, ((hmem _).mp hin).1, happ _ hin⟩

/-! ## The active flows -/

structure Served (core : EmulCore) (f : Flow Node) : Prop where
  source : ∃ ip, (ip, f.source) ∈ core.ipToApp.elems
  destination : ∃ ip, (ip, f.destination) ∈ core.ipToApp.elems
  cells : core.graph.cells f.source f.destination ≠ []

/-- What holds of the active flows, and of the bandwidth that they leave, between two messages. -/
structure FlowsInv (core : EmulCore) (s : FlowSet Node × Network Node) : Prop where
  run : Bwsync.RunInv core.graph s
  served : ∀ f ∈ s.1.elems, Served core f

theorem Served.congr {core : EmulCore} {f h : Flow Node} (hf : Served core f)
    (hs : h.source = f.source) (hd : h.destination = f.destination) : Served core h :=
  ⟨hs ▸ hf.source, hd ▸ hf.destination, by rw [hs, hd]; exact hf.cells⟩

theorem Served.known {core : EmulCore} {f : Flow Node} (hf : Served core f) :
    Bwsync.Known core.graph f := Bwsync.known_of_cells hf.cells

theorem served_of_redistributed {core : EmulCore} {path : List (Sym2 Nat)} {flows flows' : FlowSet Node}
    (h : Bwsync.Redistributed core.graph path flows flows') (hflows : ∀ f ∈ flows.elems, Served core f) :
    ∀ f ∈ flows'.elems, Served core f := by
  intro f hf
  obtain ⟨f₀, hf₀, rfl⟩ := List.mem_map.mp (h.perm.mem_iff.mp hf)
  obtain ⟨hs, hd⟩ := Bwsync.ends_redistribute core.graph flows path f₀
  exact (hflows f₀ hf₀).congr hs hd

theorem FlowsInv.start {core : EmulCore} (hg : core.graph.Wf) :
    FlowsInv core (KeySet.empty, core.graph) :=
  ⟨Bwsync.RunInv.start hg, by simp⟩

theorem FlowsInv.redistributed {core : EmulCore} {path : List (Sym2 Nat)} {flows : FlowSet Node}
    {s : FlowSet Node × Network Node} (hrun : Bwsync.RunInv core.graph s)
    (h : Bwsync.Redistributed core.graph path flows s.1) (hflows : ∀ f ∈ flows.elems, Served core f) :
    FlowsInv core s :=
  ⟨hrun, served_of_redistributed h hflows⟩

theorem served_withFlow {core : EmulCore} {flows : FlowSet Node} {f : Flow Node}
    (hflows : ∀ h ∈ flows.elems, Served core h) (hf : Served core f) :
    ∀ h ∈ (Bwsync.withFlow flows (Bwsync.remember flows f)).elems, Served core h := by
  intro h hh
  rcases Bwsync.mem_withFlow hh with rfl | hh
  · obtain ⟨hs, hd⟩ := Bwsync.ends_remember flows f
    exact hf.congr hs hd
  · exact hflows h hh

/-- A removal keeps what holds of the active flows. It takes away only a flow that uses nothing. -/
theorem removeFlow_inv (it : Iter) {core : EmulCore} (hg : core.graph.Wf)
    {s : FlowSet Node × Network Node} (h : FlowsInv core s) {f : Flow Node} (hf : Served core f)
    (hmax : f.usedBandwidth ≤ f.maxAllowedBandwidth) (hin : s.1.contains f.key = true) :
    Returns (Bwsync.removeFlow it .wrapping s.1 f core.graph) fun s' => FlowsInv core s' ∧
      ∀ k, s'.1.contains k = true ↔ s.1.contains k = true ∧ (f.usedBandwidth = 0 → f.key ≠ k) := by
  obtain ⟨s', hs', hrun, hred⟩ := Bwsync.removeFlow_spec it hg h.run hf.cells hmax
  refine ⟨s', hs', .redistributed hrun hred (served_withFlow (fun x hx => ?_) hf), fun k => ?_⟩
  · exact h.served x (List.mem_filter.mp hx).1
  · rw [Bwsync.removeFlow_keys hg (fun x hx _ => h.run.known x hx) hf.known hs']
    by_cases hk : k = f.key
    · subst hk
      simp [hin, hf.cells]
    · simp [hk, Ne.symm hk]

theorem updateFlows_inv (it : Iter) {core : EmulCore} (hg : core.graph.Wf)
    (hs : core.graph.pathStrategy = .shortestPath) {s : FlowSet Node × Network Node}
    (h : FlowsInv core s) {f : Flow Node} (hf : Served core f)
    (hmeasured : Bwsync.Measured core.graph f) (hused : f.usedBandwidth ≠ 0) :
    Returns (Bwsync.updateFlows it .wrapping s.1 f core.graph s.2) fun s' => FlowsInv core s' ∧
      ∀ k, s'.1.contains k = true ↔ s.1.contains k = true ∨ k = f.key := by
  obtain ⟨s', hs', hrun, hred⟩ :=
    Bwsync.call_wrapping it hg hs h.run (c := .update f) ⟨hmeasured, hused⟩
  refine ⟨s', hs', .redistributed hrun hred (served_withFlow h.served hf), fun k => ?_⟩
  rw [KeySet.contains, hred, Option.isSome_map]
  show ((Bwsync.withFlow s.1 (Bwsync.remember s.1 f)).get? k).isSome = true ↔ _
  rw [Bwsync.get?_withFlow, Bwsync.key_remember, Bwsync.usedBandwidth_remember, if_neg hused]
  split <;> rename_i hk
  · simp [hk]
  · simp [hk, KeySet.contains]

/-! ## A departing node -/

theorem CoreInv.flowEnd {g : Network Node} {core : EmulCore} (hc : CoreInv g core) {f : Flow Node}
    (hf : Served core f) : Returns (flowEnd f) fun p => p.2 = f := by
  obtain ⟨src, hsrc⟩ := hf.source
  obtain ⟨dest, hdest⟩ := hf.destination
  obtain ⟨a, ha, haddr⟩ := (hc.located _ hsrc).asApp
  obtain ⟨b, hb, hbddr⟩ := (hc.located _ hdest).asApp
  unfold Emulcore.flowEnd
  rw [ha, bind_ok, haddr, bind_ok, hb, bind_ok, hbddr, bind_ok]
  exact ⟨_, rfl, rfl⟩

theorem flowEnd_snd {f : Flow Node} {p : FlowConf × Flow Node} (h : flowEnd f = .ok p) : p.2 = f := by
  obtain ⟨_, -, h⟩ := of_bind_eq_ok h
  obtain ⟨_, -, h⟩ := of_bind_eq_ok h
  obtain ⟨_, -, h⟩ := of_bind_eq_ok h
  obtain ⟨_, -, h⟩ := of_bind_eq_ok h
  cases h
  rfl

theorem map_snd_of_flowEnd {flows : List (Flow Node)} {ps : List (FlowConf × Flow Node)}
    (h : List.Forall₂ (fun f p => flowEnd f = .ok p) flows ps) : ps.map Prod.snd = flows := by
  induction h with
  | nil => rfl
  | cons hp _ ih => rw [List.map_cons, ih, flowEnd_snd hp]

theorem broadcastFlow_returns (it : Iter) (core : EmulCore) (conf : FlowConf) :
    Returns (broadcastFlow it core conf).result fun _ => True :=
  returns_forM fun _ _ => ⟨_, rfl, trivial⟩

/-- The flows of a node, as `remove_all_flows_from` collects them. -/
def flowsFrom (it : Iter) (flows : FlowSet Node) (node : Node) : List (Flow Node) :=
  (it.order flows.elems).filter fun f => decide (Vertex.id f.source = Vertex.id node)

theorem mem_flowsFrom {it : Iter} {flows : FlowSet Node} {node : Node} {f : Flow Node} :
    f ∈ flowsFrom it flows node ↔ f ∈ flows.elems ∧ Vertex.id f.source = Vertex.id node := by
  rw [flowsFrom, List.mem_filter, it.mem_order, decide_eq_true_eq]

theorem flowsFrom_nodup (it : Iter) (flows : FlowSet Node) (node : Node) :
    ((flowsFrom it flows node).map Flow.key).Nodup :=
  (((it.perm _).map _).nodup_iff.mpr flows.nodup).sublist (List.filter_sublist.map _)

theorem removeAllFlowsFrom_eq (it : Iter) (ar : Arith) (core : EmulCore) (flows : FlowSet Node)
    (bw : Network Node) (node : Node) : removeAllFlowsFrom it ar core flows bw node =
      liftM ((flowsFrom it flows node).mapM (m := Run) flowEnd) >>= fun toRemove =>
        toRemove.foldlM (removeAndTell it ar core) (flows, bw) := rfl

theorem removeAllFlowsFrom_keys {it : Iter} {ar : Arith} {core : EmulCore} (hg : core.graph.Wf)
    {flows : FlowSet Node} {bw : Network Node} {s' : FlowSet Node × Network Node}
    (hcells : ∀ f ∈ flows.elems, core.graph.cells f.source f.destination ≠ []) {node : Node}
    (h : (removeAllFlowsFrom it ar core flows bw node).result = .ok s')
    (k : Vertex.Id Node × Vertex.Id Node) :
    s'.1.contains k = true ↔ flows.contains k = true ∧ ∀ f ∈ flows.elems,
      Vertex.id f.source = Vertex.id node → f.usedBandwidth = 0 → f.key ≠ k := by
  rw [removeAllFlowsFrom_eq] at h
  obtain ⟨toRemove, hmap, h, -⟩ := Act.of_bind_eq_ok h
  have hsnd : toRemove.map Prod.snd = flowsFrom it flows node := map_snd_of_flowEnd (of_mapM_eq_ok hmap)
  have hnd := flowsFrom_nodup it flows node
  have hkeys := Act.foldlM_ok_inv (fun (pre : List (FlowConf × Flow Node)) s' =>
    ∀ k, s'.1.contains k = true ↔ flows.contains k = true ∧
      ∀ p ∈ pre, p.2.usedBandwidth = 0 → p.2.key ≠ k) (by simp) ?_ h
  · rw [hkeys]
    refine and_congr_right fun _ => ⟨fun hall f hf hsrc => ?_, fun hall p hp => ?_⟩
    · have hin : f ∈ flowsFrom it flows node := mem_flowsFrom.mpr ⟨hf, hsrc⟩
      rw [← hsnd, List.mem_map] at hin
      obtain ⟨p, hp, rfl⟩ := hin
      exact hall p hp
    · have hin := mem_flowsFrom.mp (hsnd ▸ List.mem_map_of_mem hp)
      exact hall p.2 hin.1 hin.2
  · intro pre p post s₁ s₂ hx hinv hstep k
    have hin := mem_flowsFrom.mp (hsnd ▸ List.mem_map_of_mem (hx ▸ by simp) : p.2 ∈ flowsFrom it flows node)
    have hcontains : s₁.1.contains p.2.key = true := by
      refine (hinv _).mpr ⟨KeySet.contains_key hin.1, fun q hq _ heq => ?_⟩
      -- The flows to remove have different keys.
      rw [← hsnd, hx, List.map_append, List.map_cons, List.map_append, List.map_cons] at hnd
      exact (List.nodup_append.mp hnd).2.2 _ (List.mem_map_of_mem (List.mem_map_of_mem hq)) _
        List.mem_cons_self heq
    have hknown : ∀ f ∈ s₁.1.elems, Bwsync.Known core.graph f := by
      intro f hf
      obtain ⟨f₀, hf₀, hk⟩ :=
        List.mem_map.mp (KeySet.contains_iff.mp ((hinv _).mp (KeySet.contains_key hf)).1)
      exact (Bwsync.known_of_cells (hcells f₀ hf₀)).congr hk.symm
    unfold removeAndTell at hstep
    rw [if_pos hcontains] at hstep
    obtain ⟨s₃, hs₃, hstep, -⟩ := Act.of_bind_eq_ok hstep
    obtain ⟨_, -, hstep, -⟩ := Act.of_bind_eq_ok hstep
    cases hstep
    rw [Bwsync.removeFlow_keys hg (fun f hf _ => hknown f hf) (Bwsync.known_of_cells (hcells _ hin.1)) hs₃,
      hinv]
    simp only [List.mem_append, List.mem_singleton, or_imp, forall_and, forall_eq]
    by_cases hk : k = p.2.key
    · subst hk
      have hrest := ((hinv _).mp hcontains)
      simp [hrest.1, hcells _ hin.1]
      tauto
    · simp [hk, Ne.symm hk]

theorem removeAllFlowsFrom_inv (it : Iter) {g : Network Node} {core : EmulCore}
    (hc : CoreInv g core) (hg : core.graph.Wf) {s : FlowSet Node × Network Node}
    (h : FlowsInv core s) (node : Node) :
    Returns (removeAllFlowsFrom it .wrapping core s.1 s.2 node).result (FlowsInv core) := by
  rw [removeAllFlowsFrom_eq]
  have hends : Returns ((flowsFrom it s.1 node).mapM (m := Run) flowEnd)
      (List.Forall₂ (fun f p => p.2 = f) (flowsFrom it s.1 node)) :=
    Returns.mapM fun f hf => hc.flowEnd (h.served f (mem_flowsFrom.mp hf).1)
  refine returns_bind (m := liftM ((flowsFrom it s.1 node).mapM (m := Run) flowEnd)) hends
    fun toRemove hsame => ?_
  refine (returns_foldlM (fun _ s' => FlowsInv core s') h ?_).mono fun _ hs' => hs'
  intro pre p post s₁ hx hinv
  obtain ⟨f, hf, hp⟩ : ∃ f ∈ flowsFrom it s.1 node, p.2 = f := by
    obtain ⟨i, hi, hpi⟩ := List.mem_iff_getElem.mp (show p ∈ toRemove by rw [hx]; simp)
    have hi' : i < (flowsFrom it s.1 node).length := by rw [hsame.length_eq]; exact hi
    exact ⟨_, List.getElem_mem hi', hpi ▸ hsame.get hi' hi⟩
  have hin := (mem_flowsFrom.mp hf).1
  have hremove : Returns (if s₁.1.contains p.2.key then
      Bwsync.removeFlow it .wrapping s₁.1 p.2 core.graph else pure s₁) (FlowsInv core) := by
    split <;> rename_i hcontains
    · rw [hp] at hcontains ⊢
      exact (removeFlow_inv it hg hinv (h.served f hin) (h.run.max f hin) hcontains).mono
        fun _ hs' => hs'.1
    · exact ⟨s₁, rfl, hinv⟩
  refine returns_bind (m := liftM _) hremove fun s₂ hinv₂ => ?_
  exact returns_bind (broadcastFlow_returns it core p.1) fun _ _ => ⟨s₂, rfl, hinv₂⟩

theorem removeAllFlowsFrom_spec (it : Iter) {g : Network Node} {core : EmulCore}
    (hc : CoreInv g core) (hg : core.graph.Wf) {s : FlowSet Node × Network Node}
    (h : FlowsInv core s) (node : Node) :
    Returns (removeAllFlowsFrom it .wrapping core s.1 s.2 node).result fun s' => FlowsInv core s' ∧
      ∀ k, s'.1.contains k = true ↔ s.1.contains k = true ∧ ∀ f ∈ s.1.elems,
        Vertex.id f.source = Vertex.id node → f.usedBandwidth = 0 → f.key ≠ k := by
  obtain ⟨s', hs', hinv⟩ := removeAllFlowsFrom_inv it hc hg h node
  exact ⟨s', hs', hinv, removeAllFlowsFrom_keys hg (fun f hf => (h.served f hf).cells) hs'⟩

/-! ## What a message does to the active flows -/

/-- The flow that a message is about, when both ends are known and a path joins them. -/
structure About (core : EmulCore) (conf : FlowConf) (flow : Flow Node)
    (props : Network.Properties) : Prop where
  source : core.ipToApp.get? conf.src = some (conf.src, flow.source)
  destination : core.ipToApp.get? conf.dest = some (conf.dest, flow.destination)
  path : core.graph.propertiesBetween flow.source flow.destination = .ok (some props)
  eq : flow = newFlow flow.source flow.destination props conf.throughput

theorem onFlowUpdate_cases {it : Iter} {ar : Arith} {core : EmulCore} {s s' : Loop} {conf : FlowConf}
    (h : (onFlowUpdate it ar core s conf).result = .ok s') :
    (s' = s ∧ (core.ipToApp.get? conf.src = none ∨ core.ipToApp.get? conf.dest = none) ∧
      (onFlowUpdate it ar core s conf).log = []) ∨
    ∃ flow props, About core conf flow props ∧ s'.myApps = s.myApps ∧
      applyFlow it ar core s flow = .ok (s'.activeFlows, s'.bwGraph) ∧
      (announceFlow it core s.myApps flow props conf).result = .ok () ∧
      (onFlowUpdate it ar core s conf).log = (announceFlow it core s.myApps flow props conf).log := by
  unfold onFlowUpdate at h ⊢
  cases hsrc : core.ipToApp.get? conf.src with
  | none =>
    rw [hsrc] at h
    cases h
    exact Or.inl ⟨rfl, Or.inl rfl, rfl⟩
  | some a =>
    cases hdest : core.ipToApp.get? conf.dest with
    | none =>
      rw [hsrc, hdest] at h
      cases h
      exact Or.inl ⟨rfl, Or.inr rfl, rfl⟩
    | some b =>
      obtain ⟨src, rfl⟩ : ∃ n, a = (conf.src, n) := ⟨a.2, Prod.ext (KeySet.key_of_get? hsrc) rfl⟩
      obtain ⟨dest, rfl⟩ : ∃ n, b = (conf.dest, n) := ⟨b.2, Prod.ext (KeySet.key_of_get? hdest) rfl⟩
      rw [hsrc, hdest] at h
      dsimp only at h ⊢
      obtain ⟨o, ho, h, hlog⟩ := Act.of_bind_eq_ok h
      rw [hlog]
      cases o with
      | none => cases h
      | some props =>
        obtain ⟨⟨flows, bw⟩, happly, h, hlog₁⟩ := Act.of_bind_eq_ok h
        obtain ⟨_, hann, h, hlog₂⟩ := Act.of_bind_eq_ok h
        cases h
        refine Or.inr ⟨newFlow src dest props conf.throughput, props, ⟨hsrc, hdest, ho, rfl⟩, rfl,
          happly, hann, ?_⟩
        rw [hlog₁, hlog₂]
        simp

theorem About.served {core : EmulCore} (hg : core.graph.Wf) {conf : FlowConf}
    {flow : Flow Node} {props : Network.Properties} (h : About core conf flow props) :
    Served core flow := by
  refine ⟨⟨conf.src, KeySet.mem_of_get? h.source⟩, ⟨conf.dest, KeySet.mem_of_get? h.destination⟩, ?_⟩
  rw [Network.cells, cellsOf]
  exact mt List.map_eq_nil_iff.mp (Network.route_ne_nil hg h.path)

theorem About.measured {core : EmulCore} {conf : FlowConf} {flow : Flow Node}
    {props : Network.Properties} (h : About core conf flow props) :
    Bwsync.Measured core.graph flow := by
  refine ⟨props, conf.throughput.getD 0, h.path, h.eq.trans ?_⟩
  cases conf.throughput <;> simp [newFlow]

theorem applyFlow_inv (it : Iter) {core : EmulCore} (hg : core.graph.Wf)
    (hs : core.graph.pathStrategy = .shortestPath) {s : Loop}
    (h : FlowsInv core (s.activeFlows, s.bwGraph)) {conf : FlowConf} {flow : Flow Node}
    {props : Network.Properties} (ha : About core conf flow props) :
    Returns (applyFlow it .wrapping core s flow) fun s' => FlowsInv core s' ∧
      ∀ k, s'.1.contains k = true ↔ if flow.usedBandwidth = 0
        then s.activeFlows.contains k = true ∧ k ≠ flow.key
        else s.activeFlows.contains k = true ∨ k = flow.key := by
  unfold applyFlow
  split <;> rename_i hused
  · split <;> rename_i hin
    · refine (removeFlow_inv it hg h (ha.served hg) ha.measured.max hin).mono fun s' hs' =>
        ⟨hs'.1, fun k => ?_⟩
      rw [hs'.2, ne_comm]
      simp [hused]
    · refine ⟨_, rfl, h, fun k => ⟨fun hk => ⟨hk, ?_⟩, And.left⟩⟩
      rintro rfl
      exact hin hk
  · exact updateFlows_inv it hg hs h (ha.served hg) ha.measured hused

theorem onFlowUpdate_inv {it : Iter} {core : EmulCore} (hg : core.graph.Wf)
    (hs : core.graph.pathStrategy = .shortestPath) {s s' : Loop}
    (h : FlowsInv core (s.activeFlows, s.bwGraph)) {conf : FlowConf}
    (he : (onFlowUpdate it .wrapping core s conf).result = .ok s') :
    FlowsInv core (s'.activeFlows, s'.bwGraph) := by
  rcases onFlowUpdate_cases he with ⟨rfl, -⟩ | ⟨flow, props, ha, -, happly, -⟩
  · exact h
  · exact ((applyFlow_inv it hg hs h ha).of_eq happly).1

/-! ## What an event does -/

theorem onJoin_cases {it : Iter} {core : EmulCore} {s s' : Loop} {node : Node} {status : AppStatus}
    (h : (onJoin it core s node status).result = .ok s') :
    s' = s ∨ (status ≠ .crashed ∧ s' = { s with myApps := s.myApps.put node .running }) := by
  obtain ⟨_, -, h, -⟩ := Act.of_bind_eq_ok h
  cases status <;> cases h
  · exact Or.inr ⟨by decide, rfl⟩
  · exact Or.inl rfl
  · exact Or.inr ⟨by decide, rfl⟩
  · exact Or.inl rfl

theorem onQuit_cases {it : Iter} {ar : Arith} {core : EmulCore} {s s' : Loop} {node : Node}
    (h : (onQuit it ar core s node).result = .ok s') :
    (removeAllFlowsFrom it ar core s.activeFlows s.bwGraph node).result =
        .ok (s'.activeFlows, s'.bwGraph) ∧
      s'.myApps = s.myApps.put node .stopped := by
  obtain ⟨⟨flows, bw⟩, hr, h, -⟩ := Act.of_bind_eq_ok h
  obtain ⟨_, -, h, -⟩ := Act.of_bind_eq_ok h
  cases h
  exact ⟨hr, rfl⟩

theorem onCrash_cases {it : Iter} {ar : Arith} {core : EmulCore} {s s' : Loop} {node : Node}
    (h : (onCrash it ar core s node).result = .ok s') :
    (removeAllFlowsFrom it ar core s.activeFlows s.bwGraph node).result =
        .ok (s'.activeFlows, s'.bwGraph) ∧
      s'.myApps = s.myApps.put node .crashed := by
  obtain ⟨⟨flows, bw⟩, hr, h, -⟩ := Act.of_bind_eq_ok h
  obtain ⟨_, -, h, -⟩ := Act.of_bind_eq_ok h
  obtain ⟨_, -, h, -⟩ := Act.of_bind_eq_ok h
  obtain ⟨app, -, h, -⟩ := Act.of_bind_eq_ok h
  obtain ⟨index, -, h, -⟩ := Act.of_bind_eq_ok h
  obtain ⟨_, -, h, -⟩ := Act.of_bind_eq_ok h
  cases h
  exact ⟨hr, rfl⟩

theorem onEvent_inv {it : Iter} {g : Network Node} {core : EmulCore} (hc : CoreInv g core)
    (hg : core.graph.Wf) {s s' : Loop} (h : FlowsInv core (s.activeFlows, s.bwGraph))
    {event : EmulationEvent} (he : (onEvent it .wrapping core s event).result = .ok s') :
    FlowsInv core (s'.activeFlows, s'.bwGraph) := by
  unfold onEvent at he
  split at he
  · cases he
    exact h
  · rename_i node status _
    split at he
    · rcases onJoin_cases he with rfl | ⟨-, rfl⟩ <;> exact h
    · exact ((removeAllFlowsFrom_spec it hc hg h node).of_eq (onQuit_cases he).1).1
    · exact ((removeAllFlowsFrom_spec it hc hg h node).of_eq (onCrash_cases he).1).1

theorem handle_inv {it : Iter} {g : Network Node} {core : EmulCore} (hc : CoreInv g core)
    (hg : core.graph.Wf) (hs : core.graph.pathStrategy = .shortestPath) {s s' : Loop}
    (h : FlowsInv core (s.activeFlows, s.bwGraph)) {m : EmulMessage}
    (he : (handle it .wrapping core s m).result = .ok s') :
    FlowsInv core (s'.activeFlows, s'.bwGraph) := by
  cases m with
  | flowUpdate conf => exact onFlowUpdate_inv hg hs h he
  | event event => exact onEvent_inv hc hg h he
  | _ => cases he; exact h

/-- An iteration handles the message, refreshes the reporters and stops when everyone crashed. -/
theorem flowRound_cases {it : Iter} {ar : Arith} {core : EmulCore} {s : Loop} {m : EmulMessage}
    {r : Loop ⊕ Loop} (h : (flowRound it ar core s m).result = .ok r) :
    ∃ s', (handle it ar core s m).result = .ok s' ∧
      (flowRound it ar core s m).log = (handle it ar core s m).log ++ (refresh it core s').log ∧
      r = if s'.stop then .inr s' else .inl s' := by
  obtain ⟨s', hs', h, hlog⟩ := Act.of_bind_eq_ok h
  obtain ⟨_, -, h, hlog'⟩ := Act.of_bind_eq_ok h
  refine ⟨s', hs', ?_, ?_⟩
  · rw [flowRound, hlog, hlog']
    split <;> simp
  · split at h <;> rename_i hstop <;> cases h <;> simp [hstop]

theorem log_flowRound (it : Iter) (ar : Arith) (core : EmulCore) (s : Loop) (m : EmulMessage) :
    (∃ e, (handle it ar core s m).result = .error e ∧
      (flowRound it ar core s m).log = (handle it ar core s m).log) ∨
    ∃ s', (handle it ar core s m).result = .ok s' ∧
      (flowRound it ar core s m).log = (handle it ar core s m).log ++ (refresh it core s').log := by
  unfold flowRound
  cases hs' : (handle it ar core s m).result with
  | error e => exact Or.inl ⟨e, rfl, by rw [bind_of_error hs']⟩
  | ok s' =>
    refine Or.inr ⟨s', rfl, ?_⟩
    rw [bind_of_ok hs']
    cases hr : (refresh it core s').result with
    | error e => rw [bind_of_error hr]
    | ok _ =>
      rw [bind_of_ok hr]
      split <;> simp

/-! ## What is done on the way -/

/-- All properties of a path at once. -/
def Complete (conf : TCConf) : Prop :=
  conf.bandwidthKbitps.isSome = true ∧ conf.latencyAndJitter.isSome = true ∧ conf.drop.isSome = true

def RunsHere (core : EmulCore) (node : Node) : Prop :=
  ∃ app, node.asApp = .ok app ∧ app.runsOn core.myself = .ok true

theorem id_reporterOf {myApps : AppMap} {node app : Node} (h : reporterOf myApps node = .ok app) :
    Vertex.id app = Vertex.id node := by
  obtain ⟨p, hp, h⟩ := of_bind_eq_ok h
  have hget : myApps.get? (Vertex.id node) = some p := unwrap_eq_ok.mp hp
  have hk := (KeySet.get?_eq_some.mp hget).2
  cases h
  exact hk

section Does

variable {P : Effect → Prop} (hhost : ∀ host id m, P (.toHost host id m))
include hhost

theorem broadcastFlow_does (it : Iter) (core : EmulCore) (conf : FlowConf) :
    Does (broadcastFlow it core conf) P fun _ => True :=
  Does.forM fun _ _ => Does.emit (hhost _ _ _) trivial

theorem removeAllFlowsFrom_does (it : Iter) (ar : Arith) (core : EmulCore) (flows : FlowSet Node)
    (bw : Network Node) (node : Node) :
    Does (removeAllFlowsFrom it ar core flows bw node) P fun _ => True := by
  rw [removeAllFlowsFrom_eq]
  refine Does.bind_lift fun toRemove _ => ?_
  refine Does.foldlM (fun s p _ _ => ?_) trivial
  refine Does.bind_lift fun s' _ => ?_
  exact (broadcastFlow_does hhost it core p.1).bind fun _ _ => Does.pure trivial

theorem announceFlow_does (it : Iter) (core : EmulCore) (myApps : AppMap) {flow : Flow Node}
    (props : Network.Properties) (conf : FlowConf)
    (h : ∀ app conf, Vertex.id app = Vertex.id flow.source → Complete conf →
      P (.toReporter app (.tcUpdate conf))) :
    Does (announceFlow it core myApps flow props conf) P fun _ => True := by
  unfold announceFlow
  refine Does.bind_lift fun _ _ => ?_
  refine Does.bind_lift fun here _ => ?_
  split
  · split
    · refine Does.bind_lift fun _ _ => ?_
      refine Does.bind_lift fun _ _ => ?_
      refine Does.bind_lift fun app happ => ?_
      refine (Does.emit (Q := fun _ => True) (h _ _ (id_reporterOf happ) ⟨rfl, rfl, rfl⟩) trivial).bind
        fun _ _ => ?_
      exact broadcastFlow_does hhost it core conf
    · exact broadcastFlow_does hhost it core conf
  · exact Does.pure trivial

end Does

theorem stopAppIfNecessary_does (node : Node) {P : Effect → Prop} (h : ∀ name, P (.stopContainer name)) :
    Does (stopAppIfNecessary node) P fun _ => True := by
  unfold stopAppIfNecessary
  refine Does.bind_lift fun app _ => ?_
  split
  · exact Does.pure trivial
  · split
    · exact Does.pure trivial
    · exact Does.emit (h _) trivial

theorem initPaths_does (it : Iter) (core : EmulCore) (node : Node) {P : Effect → Prop}
    (h : ∀ conf, Complete conf → P (.toReporter node (.tcUpdate conf))) :
    Does (initPaths it core node) P fun _ => True := by
  refine Does.forM fun otherNode _ => ?_
  split
  · exact Does.pure trivial
  · refine Does.bind_lift fun o _ => ?_
    split
    · exact Does.pure trivial
    · refine Does.bind_lift fun _ _ => ?_
      refine Does.bind_lift fun _ _ => ?_
      exact Does.emit (h _ ⟨rfl, rfl, rfl⟩) trivial

theorem refresh_does (it : Iter) (core : EmulCore) (s : Loop) {P : Effect → Prop}
    (h : ∀ f ∈ s.activeFlows.elems, ∀ app dest ip, Vertex.id app = Vertex.id f.source →
      RunsHere core f.source → f.destination.asApp = .ok dest → dest.ipAddr = .ok ip →
      P (.toReporter app (.tcUpdate ((TCConf.default ip).bandwidthKbs f.authorizedBandwidth)))) :
    Does (refresh it core s) P fun _ => True := by
  refine Does.forM fun flow hflow => ?_
  have hmem := it.mem_order.mp hflow
  refine Does.bind_lift fun src hsrc => ?_
  refine Does.bind_lift fun here hhere => ?_
  split <;> rename_i hme
  · refine Does.bind_lift fun dest hdest => ?_
    refine Does.bind_lift fun ip hip => ?_
    refine Does.bind_lift fun app happ => ?_
    subst hme
    exact Does.emit (h flow hmem app dest ip (id_reporterOf happ) ⟨src, hsrc, hhere⟩ hdest hip) trivial
  · exact Does.pure trivial

/-! ## Runs -/

def Phase.loop : Phase → Option Loop
  | .running s => some s
  | .done s => some s
  | .failed => none

theorem Step.handled {ar : Arith} {core : EmulCore} {ok : Loop → EmulMessage → Prop} {c c' : Config}
    (h : Step ar core ok c c') :
    ∃ s it m, c.phase = .running s ∧ ok s m ∧ c'.log = c.log ++ (flowRound it ar core s m).log ∧
      ∀ s', c'.phase.loop = some s' → (handle it ar core s m).result = .ok s' ∧
        (flowRound it ar core s m).log = (handle it ar core s m).log ++ (refresh it core s').log := by
  cases h with
  | @next s s' m log it hok hr =>
    obtain ⟨s'', hs'', hlog, hr'⟩ := flowRound_cases hr
    split at hr' <;> cases hr'
    exact ⟨s, it, m, rfl, hok, rfl, fun _ h => by cases h; exact ⟨hs'', hlog⟩⟩
  | @stop s s' m log it hok hr =>
    obtain ⟨s'', hs'', hlog, hr'⟩ := flowRound_cases hr
    split at hr' <;> cases hr'
    exact ⟨s, it, m, rfl, hok, rfl, fun _ h => by cases h; exact ⟨hs'', hlog⟩⟩
  | @fail s m log e it hok hr =>
    exact ⟨s, it, m, rfl, hok, rfl, fun _ h => by cases h⟩

theorem Reach.flowsInv {g : Network Node} (hg : g.Wf) (hs : g.pathStrategy = .shortestPath)
    {ok : Loop → EmulMessage → Prop} {core : EmulCore} {c : Config}
    (h : Reach .wrapping g ok core c) : CoreInv g core ∧
      ∀ s, c.phase.loop = some s → FlowsInv core (s.activeFlows, s.bwGraph) := by
  obtain ⟨c₀, hinit, hsteps⟩ := h
  cases hinit with
  | mk it hnew happs =>
    have hc := (new_inv hnew).1
    have hg' : core.graph.Wf := hc.graph ▸ hg
    have hs' : core.graph.pathStrategy = .shortestPath := hc.graph ▸ hs
    refine ⟨hc, ?_⟩
    induction hsteps with
    | refl =>
      rintro s ⟨⟩
      exact FlowsInv.start hg'
    | tail _ hstep ih =>
      intro s' hs''
      obtain ⟨s, it', m, hphase, -, -, hnext⟩ := hstep.handled
      exact handle_inv hc hg' hs' (ih s (by rw [hphase]; rfl)) (hnext s' hs'').1

/-- Every message meets `ok` in the state that it finds. -/
def Along (it : Iter) (ar : Arith) (core : EmulCore) (ok : Loop → EmulMessage → Prop) :
    List EmulMessage → Loop → Prop
  | [], _ => True
  | m :: ms, s => ok s m ∧ ∀ s', (flowRound it ar core s m).result = .ok (.inl s') →
      Along it ar core ok ms s'

theorem along_true (it : Iter) (ar : Arith) (core : EmulCore) (messages : List EmulMessage)
    (s : Loop) : Along it ar core (fun _ _ => True) messages s := by
  induction messages generalizing s with
  | nil => trivial
  | cons m ms ih => exact ⟨trivial, fun s' _ => ih s'⟩

theorem steps_flowLoop {it : Iter} {ar : Arith} {core : EmulCore} {ok : Loop → EmulMessage → Prop}
    {messages : List EmulMessage} {s s' : Loop} {log : List Effect}
    (hok : Along it ar core ok messages s)
    (h : (flowLoop it ar core messages s).result = .ok (.inl s')) :
    Relation.ReflTransGen (Step ar core ok) ⟨.running s, log⟩
      ⟨.running s', log ++ (flowLoop it ar core messages s).log⟩ := by
  induction messages generalizing s log with
  | nil =>
    cases h
    rw [flowLoop, log_pure, List.append_nil]
  | cons m ms ih =>
    obtain ⟨r, hr, h, hlog⟩ := Act.of_bind_eq_ok h
    rw [flowLoop, hlog]
    cases r with
    | inr s₁ => cases h
    | inl s₁ =>
      rw [← List.append_assoc]
      exact .head (.next it hok.1 hr) (ih (hok.2 s₁ hr) h)

/-! ## Two apps -/

def demoHost (n : Nat) : ClusterNodeInfo := ⟨.v4 (BitVec.ofNat 32 n), 8080⟩

def demoApp (id : Nat) (host : ClusterNodeInfo) : Node :=
  .app id
    { ipApp := some (.v4 (BitVec.ofNat 32 (100 + id)))
      hostOpt := some host
      name := "app"
      kind := .container ⟨"kollaps", none, some ("image", none)⟩
      indexOpt := some id }

def demoNet (n : Nat) : Network Node where
  links := ⟨2, [none, some (Link.build (demoApp 0 (demoHost 0)) (demoApp 1 (demoHost n)) 0 1 100), none],
    show 3 = SymMatrix.sizeVec 2 by decide +kernel⟩
  mapper := ⟨[(demoApp 1 (demoHost n), 1), (demoApp 0 (demoHost 0), 0)],
    show [(true, 1), (true, 0)].Nodup by decide⟩
  pathStrategy := .shortestPath

def demoEvent (appId : Nat) (action : EventAction) : EmulMessage := .event ⟨appId, ⟨0, 0⟩, action⟩

def demoFlow (throughput : Option Nat) : EmulMessage :=
  .flowUpdate ⟨.v4 100, .v4 101, throughput⟩

theorem demoNet_built (n : Nat) (h : n = 0 ∨ n = 1) : (demoNet n).Built := by
  obtain ⟨g₀, h₀, h₁⟩ : Returns (Network.new [demoApp 0 (demoHost 0), demoApp 1 (demoHost n)]
      .shortestPath) fun g₀ =>
        g₀.addEdge (demoApp 0 (demoHost 0)) (demoApp 1 (demoHost n)) 100 = .ok (demoNet n) := by
    rcases h with rfl | rfl <;> decide +kernel
  exact (Network.Built.new h₀).addEdge (by decide) h₁

def demoRun (net : Network Node) (myself : ClusterNodeInfo) (messages : List EmulMessage) :
    Act Effect (EmulCore × Loop) := do
  let core ← new .inOrder ⟨0⟩ net myself (demoHost 0)
  let apps ← initEmulation .inOrder core
  match ← flowLoop .inOrder .wrapping core messages (start core apps) with
  | .inl s => pure (core, s)
  | .inr _ => liftM (.error .assertion : Run (EmulCore × Loop))

theorem demoRun_reach {net : Network Node} {myself : ClusterNodeInfo} {messages : List EmulMessage}
    {ok : Loop → EmulMessage → Prop} {core : EmulCore} {s : Loop}
    (hok : ∀ core apps, (initEmulation .inOrder core).result = .ok apps →
      Along .inOrder .wrapping core ok messages (start core apps))
    (h : (demoRun net myself messages).result = .ok (core, s)) :
    Reach .wrapping net ok core ⟨.running s, (demoRun net myself messages).log⟩ := by
  obtain ⟨core', hnew, h, hlog⟩ := Act.of_bind_eq_ok h
  obtain ⟨apps, happs, h, hlog₁⟩ := Act.of_bind_eq_ok h
  obtain ⟨r, hr, h, hlog₂⟩ := Act.of_bind_eq_ok h
  cases r with
  | inr s' => cases h
  | inl s' =>
    cases h
    rw [demoRun, hlog, hlog₁, hlog₂]
    refine ⟨_, .mk .inOrder hnew happs, ?_⟩
    simpa using steps_flowLoop (hok _ _ happs) hr

end Emulcore

end Kollaps
