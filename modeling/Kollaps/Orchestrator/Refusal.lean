import Kollaps.Orchestrator.Exhaustive
import Kollaps.Orchestrator.Handout
import Kollaps.Orchestrator.Overflow
import Kollaps.Xmlgraphparser.Checks

/-!
# Topologies that cannot be deployed

A topology that does not fit on the hosts is refused. One whose apps are not all connected has no
matrix of bandwidths, and `bandwidth_matrix` has no way to say so.
-/

namespace Kollaps

open Run

namespace Orchestrator

variable {ar : Arith} {it : Iter} {o o' : Orchestrator} {g1 matrix : SymMatrix Nat} {id : Uuid} {p : List Nat}
  {network : Network Node}

/-! ## Every state -/

/-- The states that any calls lead to, with any arguments. A call that gives an `Err` changes nothing. -/
inductive Called (ar : Arith) : Orchestrator → Prop
  | new {it : Iter} {cgraph : Cgraph.CGraph ClusterNodeInfo} {port maxLoad : Nat} {o : Orchestrator}
      (h : Orchestrator.new it cgraph port maxLoad = .ok o) : Called ar o
  | newEmulation {it : Iter} {network : Network Node} {id : Uuid} {o o' : Orchestrator}
      {answer : Option (Network Node × List ClusterNodeInfo)} (ho : Called ar o)
      (h : o.newEmulation ar it network id = .ok (o', answer)) : Called ar o'
  | stopEmulation {id : Uuid} {o o' : Orchestrator} (ho : Called ar o)
      (h : o.stopEmulation ar id = .ok o') : Called ar o'
  | stopAppEmulationOn {id : Uuid} {node : ClusterNodeInfo} {app : Nat} {o o' : Orchestrator}
      (ho : Called ar o) (h : o.stopAppEmulationOn ar id node app = .ok o') : Called ar o'
  | removeClusterNode {it : Iter} {node : ClusterNodeInfo} {uuids : List Uuid} {o o' : Orchestrator}
      (ho : Called ar o) (h : o.removeClusterNode ar it node = .ok (o', uuids)) : Called ar o'
  | updateWithCgraph {it : Iter} {cgraph : Cgraph.CGraph ClusterNodeInfo} {uuids : List Uuid}
      {o o' : Orchestrator} (ho : Called ar o) (h : o.updateWithCgraph ar it cgraph = .ok (o', uuids)) :
      Called ar o'

theorem SameCluster.mapped (h : SameCluster o o') (hn : o'.residualGraph.n = o.residualGraph.n)
    (ho : o.Mapped) : o'.Mapped := by
  rw [Mapped, h.hostMapping, hn]
  exact ho

theorem NodeRemoved.mapped {node : ClusterNodeInfo} {uuids : List Uuid} {i : Nat} {o₁ : Orchestrator}
    (h : NodeRemoved ar o node uuids i o₁ o') (ho : o.Mapped) : o'.Mapped := by
  have hi : i < o.hostMapping.length := (List.findIdx?_eq_some_iff_getElem.mp h.index).1
  obtain ⟨hsame, hn⟩ : o₁.hostMapping = o.hostMapping ∧ o₁.residualGraph.n = o.residualGraph.n := by
    refine stopEach_inv (fun _ s => s.hostMapping = o.hostMapping ∧ s.residualGraph.n = o.residualGraph.n)
      ⟨rfl, rfl⟩ (fun _ u s s' hs hstop => ?_) h.stopped
    rcases hstop with hstop | ⟨-, rfl⟩
    · obtain ⟨matrix, p, hstopped⟩ := stopEmulation_ok hstop
      exact ⟨hstopped.cluster.hostMapping.trans hs.1, hstopped.size.trans hs.2⟩
    · exact hs
  have hlt : i < o₁.residualGraph.n := by
    rw [hn, ← ho]
    exact hi
  rw [Mapped, h.hostMapping, (SymMatrix.removeId_ok hlt h.residualGraph).1, hsame, hn,
    List.length_eraseIdx_of_lt hi, ho]

theorem addClusterNode_mapped {nodesToIndex : HostMap Nat} {node : ClusterNodeInfo}
    (h : addClusterNode matrix nodesToIndex o node = .ok o') (ho : o.Mapped) : o'.Mapped := by
  obtain ⟨index, -, h⟩ := of_bind_eq_ok h
  obtain ⟨residualGraph, hgrow, h⟩ := of_bind_eq_ok h
  cases h
  rw [Mapped, (SymMatrix.growFn_ok hgrow).1, List.length_append, List.length_singleton, ho]

theorem Called.mapped (h : Called ar o) : o.Mapped := by
  induction h with
  | new h =>
    obtain ⟨⟨residualGraph, hostMapping⟩, hspeeds, h⟩ := of_bind_eq_ok h
    cases h
    exact (Cgraph.speeds_ok hspeeds).size.symm
  | @newEmulation _ _ _ o o' answer _ h ih =>
    cases answer with
    | none => exact newEmulation_none h ▸ ih
    | some answer =>
      obtain ⟨matrix, p, places, hplaced, -⟩ := newEmulation_some h
      exact hplaced.cluster.mapped hplaced.size ih
  | stopEmulation _ h ih =>
    obtain ⟨matrix, p, hstopped⟩ := stopEmulation_ok h
    exact hstopped.cluster.mapped hstopped.size ih
  | stopAppEmulationOn _ h ih =>
    obtain ⟨matrix, p, hstopped⟩ := stopAppEmulationOn_ok h
    exact hstopped.cluster.mapped hstopped.size ih
  | removeClusterNode _ h ih =>
    obtain ⟨i, o₁, hremoved⟩ := removeClusterNode_ok h
    exact hremoved.mapped ih
  | updateWithCgraph _ h ih =>
    exact updateWithCgraph_inv (fun _ s => s.Mapped) ih (fun _ _ _ _ _ _ _ hs h => h.mapped hs)
      (fun _ _ _ _ _ _ hs h => addClusterNode_mapped h hs) (fun _ _ _ _ hs => hs) h

/-! ## The search -/

/-- Without apps the first combination is empty, and it passes. -/
theorem testCombination_nil (happs : g1.n = 0) : o.testCombination ar it g1 [] [] = .ok (.inl []) := by
  have hremaining : o.remaining it KeySet.empty = .ok true := by
    rw [remaining, KeySet.elems_empty, List.perm_nil.mp (it.perm [])]
    rfl
  have hset : o.combinationSet [] = .ok KeySet.empty := rfl
  have hiso : o.graphIsomorphism ar it g1 SymMatrix.empty [] = .ok (some []) := by
    unfold graphIsomorphism
    rw [SymMatrix.size, happs]
    rfl
  unfold testCombination
  rw [hset, bind_ok, hremaining, bind_ok, List.length_nil, SymMatrix.newFn_zero]
  simp only [List.any_nil, Bool.not_false, Bool.and_true, if_true, bind_ok, hiso]
  rfl

theorem findIsomorphism_empty (hN : 0 < o.residualGraph.n) (happs : g1.n = 0) :
    o.findIsomorphism ar it g1 = .ok (some []) := by
  have hround : o.combinationRound ar it g1 (o.residualGraph.n - 1) ([], []) = .ok (.inr (.inl [])) := by
    rw [combinationRound, testCombination_nil happs]
    rfl
  have hclones : (max 0 (((0 : Nat) : Int) - (o.residualGraph.n : Int))).toNat = 0 := by omega
  unfold findIsomorphism
  rw [SymMatrix.size, SymMatrix.size, happs, hclones, findIsoInternal,
    usizeSub_of_le (show 1 ≤ o.residualGraph.size from hN), bind_ok]
  simp only [SymMatrix.size, happs, gt_iff_lt, Nat.lt_irrefl, if_false, loop, List.range_zero,
    hround, bind_ok]
  rfl

/-- With a host to spare no combination has all the hosts, and the search comes to an end. -/
theorem findIsomorphism_returns (hmapped : o.Mapped) (hsum : Summable ar g1)
    (hspare : g1.n < o.residualGraph.n) : Returns (o.findIsomorphism ar it g1) fun _ => True := by
  have hN : 0 < o.residualGraph.n := Nat.zero_lt_of_lt hspare
  rcases Nat.eq_zero_or_pos g1.n with happs | happs
  · exact ⟨_, findIsomorphism_empty hN happs, trivial⟩
  · have hclones : (max 0 ((g1.n : Int) - (o.residualGraph.n : Int))).toNat = 0 := by omega
    unfold findIsomorphism
    rw [SymMatrix.size, SymMatrix.size, hclones]
    have hfind : Returns (o.findIsoInternal ar it g1 5 0 []) _ :=
      findIsoInternal_returns hmapped hN happs hsum (by omega) (by omega) (by simp)
    exact hfind.mono fun _ _ => trivial

/-! ## What was found is carried out -/

theorem Found.places (h : Found ar it o matrix p) (hmapped : o.Mapped) : ∃ places, o.Places p places := by
  have hlt : ∀ host ∈ p, host < o.hostMapping.length := fun host hhost => by
    rw [hmapped]
    exact h.lt host hhost
  clear h
  induction p with
  | nil => exact ⟨[], .nil⟩
  | cons host p ih =>
    obtain ⟨places, hplaces⟩ := ih fun x hx => hlt x (List.mem_cons_of_mem _ hx)
    exact ⟨_ :: places, .cons (List.getElem?_eq_getElem (hlt host List.mem_cons_self)) hplaces⟩

theorem newEmulation_returns {apps : List Node}
    (hmatrix : network.bandwidthMatrix it Node.isApp = .ok (matrix, apps)) (hmapped : o.Mapped)
    (hsum : Summable ar matrix) (hspare : matrix.n < o.residualGraph.n) (id : Uuid) :
    Returns (o.newEmulation ar it network id) fun r => r.2 = none → r.1 = o := by
  obtain ⟨happs, hn, -⟩ := Network.bandwidthMatrix_ok hmatrix
  obtain ⟨found, hfound, -⟩ : Returns (o.findIsomorphism ar it matrix) _ :=
    findIsomorphism_returns hmapped hsum hspare
  have hreturns : Returns (o.newEmulation ar it network id) fun _ => True := by
    unfold newEmulation
    rw [hmatrix, bind_ok]
    simp only [hfound, bind_ok]
    cases found with
    | none => exact ⟨_, rfl, trivial⟩
    | some p =>
      have hfound := findIsomorphism_found hfound
      obtain ⟨places, hplaces⟩ := hfound.places hmapped
      have hlen : apps.length = places.length := by
        rw [← hn, ← hfound.length, hplaces.length_eq]
      have hisApp : ∀ v ∈ apps, v.isApp = true := fun v hv => (List.mem_filter.mp (happs ▸ hv)).2
      obtain ⟨⟨o₁, network₁, nodes, affected⟩, hplaced, -⟩ :
          Returns (forRange apps.length _ (placeApp id p)) _ :=
        placeApps_returns hplaces hisApp hlen network
      rw [← hn] at hplaced
      obtain ⟨places', -, rfl, -⟩ := placeApps_ok hfound.length.ge hplaced
      obtain ⟨residualGraph, hreserved, -⟩ := hfound.reserves
      simp only [SymMatrix.size] at hreserved
      simp only [SymMatrix.size, hplaced, bind_ok, (assigned_foldl id places' o).residualGraph, hreserved]
      exact ⟨_, rfl, trivial⟩
  obtain ⟨⟨o', answer⟩, hnew, -⟩ := hreturns
  refine ⟨_, hnew, ?_⟩
  rintro rfl
  exact newEmulation_none hnew

theorem newEmulation_error {e : Fault} (h : network.bandwidthMatrix it Node.isApp = .error e) (id : Uuid) :
    o.newEmulation ar it network id = .error e := by
  rw [newEmulation, h, bind_error]

/-! ## Refusals -/

/-- Any two apps are joined by a path of links. -/
def AppsConnected (network : Network Node) : Prop :=
  ∀ a b i j, network.Picks Node.isApp a b i j → network.graph.Reachable i j

/-- With a host to spare a new emulation gives an answer, and changes nothing where this is a refusal,
exactly where the apps are connected. It gives no `Err`: the other topologies are a panic. -/
theorem answers_iff_connected {ar : Arith} {it it' : Iter} {o : Orchestrator} {libs : XmlLibraries}
    {text : String} {emulId : Uuid} {network : Network Node} {events : List EmulationEvent} (ho : Called ar o)
    (hparse : Xmlgraphparser.parseTopology libs it' text emulId = .ok (network, events))
    (hspare : ((network.vertices it).filter Node.isApp).length + 1 ≤ o.hostMapping.length)
    (hsum : ∀ matrix apps, network.bandwidthMatrix it Node.isApp = .ok (matrix, apps) → Summable ar matrix)
    (id : Uuid) :
    ((Returns (o.newEmulation ar it network id) fun r => r.2 = none → r.1 = o) ↔ AppsConnected network) ∧
      NoErr (o.newEmulation ar it network id) := by
  have hg : network.Shaped := (Xmlgraphparser.parseTopology_built hparse).wf.shaped
  cases hmatrix : network.bandwidthMatrix it Node.isApp with
  | ok r =>
    obtain ⟨matrix, apps⟩ := r
    obtain ⟨rfl, hn, -⟩ := Network.bandwidthMatrix_ok hmatrix
    have hroom : matrix.n < o.residualGraph.n := by
      rw [hn, ← ho.mapped]
      exact hspare
    have hreturns := newEmulation_returns hmatrix ho.mapped (hsum _ _ hmatrix) hroom id
    refine ⟨iff_of_true hreturns fun a b i j hp => Network.reachable_of_bandwidthMatrix hg hmatrix hp, ?_⟩
    obtain ⟨r, hr, -⟩ := hreturns
    rw [hr]
    exact NoErr.ok r
  | error e =>
    have hpanic : o.newEmulation ar it network id = .error e := newEmulation_error hmatrix id
    refine ⟨iff_of_false ?_ fun hconn => ?_, fun message herr => ?_⟩
    · rintro ⟨r, hr, -⟩
      cases hpanic.symm.trans hr
    · obtain ⟨r, hr, -⟩ := Network.bandwidthMatrix_spec hg it hconn
      cases hmatrix.symm.trans hr
    · rw [hpanic, Except.error.injEq] at herr
      exact Network.bandwidthMatrix_noErr hg it Node.isApp message (herr ▸ hmatrix)

def linkedServices : List XmlNode :=
  [.element "experiment" [("boot", "kollaps")]
    [.element "services" [] [Xmlgraphparser.service "a" "10.0.0.1", Xmlgraphparser.service "b" "10.0.0.2"],
      .element "links" [] [.element "link" [("origin", "a"), ("dest", "b"), ("bandwidth", "10Mbps")] []]]]

theorem answers_iff_connected_demo : ∃ (o : Orchestrator) (network : Network Node), Called .wrapping o ∧
    o.hostMapping.length = 3 ∧ AppsConnected network := by
  obtain ⟨graph, -, o, ho, hlen, ⟨network, events⟩, hparse, happs, hreturns⟩ :
      Returns (demoCluster [0, 1, 2] 1000) fun graph =>
        Returns (Orchestrator.new .inOrder graph 9092 1) fun o => o.hostMapping.length = 3 ∧
          Returns (Xmlgraphparser.parseDemo linkedServices) fun r =>
            ((r.1.vertices .inOrder).filter Node.isApp).length = 2 ∧
            Returns (o.newEmulation .wrapping .inOrder r.1 ⟨0⟩) fun a => a.2 = none → a.1 = o := by
    decide +kernel
  have hspare : ((network.vertices .inOrder).filter Node.isApp).length + 1 ≤ o.hostMapping.length := by
    rw [happs, hlen]
  have hcalled : Called .wrapping o := .new ho
  have hanswers := answers_iff_connected hcalled hparse hspare
    (fun _ _ _ => summable_of_not_checked Arith.noConfusion) ⟨0⟩
  exact ⟨o, network, hcalled, hlen, hanswers.1.mp hreturns⟩

/-- Of two services one has no link: the call panics, although there are hosts for both. -/
theorem unconnected_panics : ∃ (o : Orchestrator) (network : Network Node) (events : List EmulationEvent),
    Called .wrapping o ∧
    Xmlgraphparser.parseDemo Xmlgraphparser.twoServices = .ok (network, events) ∧
    ((network.vertices .inOrder).filter Node.isApp).length + 1 ≤ o.hostMapping.length ∧
    o.newEmulation .wrapping .inOrder network ⟨0⟩ = .error .unwrap := by
  obtain ⟨graph, -, o, ho, ⟨network, events⟩, hparse, hspare, hmatrix⟩ :
      Returns (demoCluster [0, 1, 2] 1000) fun graph =>
        Returns (Orchestrator.new .inOrder graph 9092 1) fun o =>
          Returns (Xmlgraphparser.parseDemo Xmlgraphparser.twoServices) fun r =>
              ((r.1.vertices .inOrder).filter Node.isApp).length + 1 ≤ o.hostMapping.length ∧
              r.1.bandwidthMatrix .inOrder Node.isApp = .error .unwrap := by
    decide +kernel
  exact ⟨o, network, events, .new ho, hparse, hspare, newEmulation_error hmatrix ⟨0⟩⟩

end Orchestrator

end Kollaps
