import Kollaps.Orchestrator.Reservations
import Kollaps.Pubapi.Rejection

/-!
# The messages of the nodes

What a node sends finds its host, its load and its app where the placement put them. Only a
node that gets ready after its emulation was aborted finds nothing.
-/

namespace Kollaps

open Run Act Cgraph

namespace Orchestrator

variable {ar : Arith} {it : Iter} {o o' : Orchestrator} {id : Uuid} {matrix : SymMatrix Nat} {p : List Nat}

theorem unload_returns {node : ClusterNodeInfo} (ho : o.Accounted)
    (hnode : o.currentLoad.lookup node ≠ none) : Returns (o.unload id node) fun _ => True := by
  obtain ⟨map, hmap⟩ := Option.ne_none_iff_exists'.mp hnode
  unfold unload
  rw [KeySet.get?_eq_lookup, hmap, Option.map_some, unwrap_some, bind_ok]
  simp only [KeySet.get?_eq_lookup]
  cases hid : map.lookup id with
  | none => exact ⟨o, rfl, trivial⟩
  | some load =>
    obtain ⟨hpos, uuids, huuids, -⟩ := ho.loaded node id load (by rw [loadOf, hmap]; exact hid)
    simp only [Option.map_some, usizeSub_of_le hpos, bind_ok]
    split
    · rw [huuids, Option.map_some, unwrap_some, bind_ok]
      exact ⟨_, rfl, trivial⟩
    · exact ⟨_, rfl, trivial⟩

def Fits (o : Orchestrator) (id : Uuid) (appIndex : Nat) : Prop :=
  ∀ matrix p, o.emulations.lookup id = some (matrix, p) →
    o.residualGraph.Fits ((pairsOf matrix.n appIndex).map (cellOf matrix p))

theorem stopAppEmulationOn_returns {node : ClusterNodeInfo} {appIndex : Nat} (ho : o.Accounted)
    (hemul : o.emulations.lookup id = some (matrix, p)) (hlen : p.length = matrix.n)
    (hlt : ∀ h ∈ p, h < o.residualGraph.n) (happ : appIndex < matrix.n)
    (hnode : o.currentLoad.lookup node ≠ none) :
    Returns (o.stopAppEmulationOn ar id node appIndex) (fun _ => True) ↔
      (ar = .checked → o.Fits id appIndex) := by
  have hwithin : Cell.Within o.residualGraph.n ((pairsOf matrix.n appIndex).map (cellOf matrix p)) := by
    refine within_map hlt fun pair hpair => ?_
    obtain ⟨h1, h2, -⟩ := mem_pairsOf.mp hpair
    omega
  have hfits : o.Fits id appIndex ↔
      o.residualGraph.Fits ((pairsOf matrix.n appIndex).map (cellOf matrix p)) := by
    unfold Fits
    rw [hemul]
    simp only [Option.some.injEq, Prod.mk.injEq]
    exact ⟨fun h => h matrix p ⟨rfl, rfl⟩, by rintro h _ _ ⟨rfl, rfl⟩; exact h⟩
  rw [hfits, ← SymMatrix.addAll_returns hwithin, ← releaseApp_eq hlen happ]
  unfold stopAppEmulationOn
  rw [KeySet.get?_eq_lookup, hemul, Option.map_some]
  constructor
  · rintro ⟨o', h, -⟩
    obtain ⟨r, hr, -⟩ := Run.of_bind_eq_ok h
    exact ⟨r, hr, trivial⟩
  · intro hr
    refine hr.bind fun r _ => ?_
    refine (unload_returns (o := { o with residualGraph := r }) ⟨ho.loaded, ho.attributed⟩ hnode).bind
      fun o₁ _ => ?_
    split <;> exact ⟨_, rfl, trivial⟩

end Orchestrator

namespace Pubapi

open Orchestrator (loadOf)

def placesOf (o : Orchestrator) (id : Uuid) : Option (List ClusterNodeInfo) :=
  (o.emulations.lookup id).map fun e => e.2.filterMap fun h => o.hostMapping[h]?

def Input.submits : Input → Option Uuid
  | .message uuid (.newTopology _) => some uuid
  | _ => none

def Input.isMessage : Input → Bool
  | .message _ _ => true
  | .update _ => false

namespace OManager

/-- Among the inputs is the topology of the emulation, and its apps were put on `hosts`. -/
def Hosted (m₀ : OManager) (inputs : List (Env × Input)) (id : Uuid) (hosts : List ClusterNodeInfo) : Prop :=
  ∃ pre env top post m, inputs = pre ++ (env, .message id (.newTopology top)) :: post ∧
    m₀.acceptTopology (pre ++ [(env, .message id (.newTopology top))]) = .ok m ∧
    placesOf m.orchestrator id = some hosts

/-- A message that a node of a placed emulation can send. -/
def Sends (m₀ : OManager) (inputs : List (Env × Input)) : OManagerMessage → Prop
  | .abort id => ∃ hosts, m₀.Hosted inputs id hosts
  | .emulationReady id node => ∃ hosts, m₀.Hosted inputs id hosts ∧ node ∈ hosts
  | .cleanStop id node appIndex => ∃ hosts, m₀.Hosted inputs id hosts ∧ hosts[appIndex]? = some node
  | _ => False

/-- A node that gets ready is still waited for, and the local channel is not the first that
fails; and what a stop gives back does not overflow. -/
def Survives (env : Env) (m : OManager) : OManagerMessage → Prop
  | .emulationReady id node => ∃ nodes, m.emulationsAndTheirNodes.lookup id = some nodes ∧
      ((nodes.put node true).elems.all Prod.snd →
        ((env.it.order (nodes.put node true).elems).map Prod.fst).find? (fun n => !env.reaches n) ≠
          some m.myInfoEmanager)
  | .cleanStop id _ appIndex => env.ar = .checked → m.orchestrator.Fits id appIndex
  | _ => True

variable {env : Env} {m₀ m m' : OManager} {inputs : List (Env × Input)}

/-! ## One message -/

/-- A message that registers nothing: every table keeps the keys that it still has. -/
structure Quiet (m m' : OManager) : Prop where
  residual : m'.orchestrator.residualGraph.n = m.orchestrator.residualGraph.n
  hostMapping : m'.orchestrator.hostMapping = m.orchestrator.hostMapping
  hosts : ∀ h, m.orchestrator.currentLoad.lookup h ≠ none → m'.orchestrator.currentLoad.lookup h ≠ none
  emulations : ∀ u e, m'.orchestrator.emulations.lookup u = some e →
    m.orchestrator.emulations.lookup u = some e
  nodes : ∀ u nodes', m'.emulationsAndTheirNodes.lookup u = some nodes' →
    ∃ nodes, m.emulationsAndTheirNodes.lookup u = some nodes ∧
      ∀ h, nodes.lookup h ≠ none → nodes'.lookup h ≠ none

theorem Quiet.refl (m : OManager) : Quiet m m :=
  ⟨rfl, rfl, fun _ h => h, fun _ _ h => h, fun _ nodes h => ⟨nodes, h, fun _ h => h⟩⟩

theorem Quiet.trans {m'' : OManager} (h : Quiet m m') (h' : Quiet m' m'') : Quiet m m'' := by
  refine ⟨h'.residual.trans h.residual, h'.hostMapping.trans h.hostMapping,
    fun x hx => h'.hosts x (h.hosts x hx), fun u e he => h.emulations u e (h'.emulations u e he),
    fun u nodes'' hu => ?_⟩
  obtain ⟨nodes', hu', hkeys'⟩ := h'.nodes u nodes'' hu
  obtain ⟨nodes, hu, hkeys⟩ := h.nodes u nodes' hu'
  exact ⟨nodes, hu, fun x hx => hkeys' x (hkeys x hx)⟩

theorem Aborted.quiet {uuids : List Uuid} (h : Aborted uuids m m') : Quiet m m' := by
  refine ⟨by rw [h.orchestrator], by rw [h.orchestrator], fun x hx => by rwa [h.orchestrator],
    fun u e he => by rwa [h.orchestrator] at he, fun u nodes' hu => ?_⟩
  rw [h.forgets] at hu
  split at hu
  · cases hu
  · exact ⟨nodes', hu, fun _ hx => hx⟩

theorem mark_quiet {id : Uuid} {nodes : HostMap Bool} {node : ClusterNodeInfo}
    (hlookup : m.emulationsAndTheirNodes.lookup id = some nodes) : Quiet m (m.mark id nodes node) := by
  refine ⟨rfl, rfl, fun _ h => h, fun _ _ h => h, fun u nodes' hu => ?_⟩
  rw [mark, KeySet.lookup_put] at hu
  split at hu <;> rename_i heq
  · cases hu
    refine ⟨nodes, heq ▸ hlookup, fun x hx => ?_⟩
    rw [KeySet.lookup_put]
    split
    · simp
    · exact hx
  · exact ⟨nodes', hu, fun _ hx => hx⟩

theorem onCleanStop_quiet {id : Uuid} {node : ClusterNodeInfo} {appIndex : Nat}
    (h : (m.onCleanStop env id node appIndex).result = .ok m') : Quiet m m' := by
  rcases onCleanStop_ok h with ⟨-, rfl⟩ | ⟨o, hstop, rfl⟩
  · exact Quiet.refl m'
  · obtain ⟨matrix, p, hstopped⟩ := Orchestrator.stopAppEmulationOn_ok hstop
    refine ⟨?_, hstopped.cluster.hostMapping, fun x hx => (hstopped.hosts x).mpr hx, fun u e he => ?_,
      fun u nodes hu => ⟨nodes, hu, fun _ hx => hx⟩⟩
    · refine forRange_ok_inv (fun r => r.n = m.orchestrator.residualGraph.n) rfl
        (fun i r r' hr h => ?_) hstopped.released
      split at h
      · cases h
        exact hr
      · exact (Orchestrator.release_n h).trans hr
    · by_cases hattr : ∃ x, o.Attributed x id
      · rwa [hstopped.kept hattr] at he
      · rw [hstopped.forgotten hattr, KeySet.lookup_remove] at he
        split at he
        · cases he
        · exact he

theorem handleExperimentMessage_cases {uuid : Uuid} {message : OManagerMessage}
    (h : (m.handleExperimentMessage env uuid message).result = .ok m') :
    Quiet m m' ∨ ∃ top o network network' nodes, message = .newTopology top ∧
      m.orchestrator.newEmulation env.ar env.it network uuid = .ok (o, some (network', nodes)) ∧
      m' = { m with
        orchestrator := o
        emulationsAndTheirNodes := m.emulationsAndTheirNodes.put uuid
          (nodes.foldl (fun acc n => acc.put n false) KeySet.empty) } := by
  cases message with
  | newTopology top =>
    have hspec := onNewTopology_spec h
    generalize (m.onNewTopology env uuid top).log = log at hspec
    cases hspec with
    | refused reason hmiss => exact Or.inl (Quiet.refl m)
    | entered ok hparse hplace hok hlog => exact Or.inr ⟨top, _, _, _, _, rfl, hplace, rfl⟩
  | abort id => exact Or.inl ((onAbort_spec id).of_eq h).quiet
  | cleanStop id node appIndex => exact Or.inl (onCleanStop_quiet h)
  | emulationReady id node =>
    obtain ⟨nodes, hlookup, -, hgo, hstall⟩ := onEmulationReady_ok h
    by_cases hs : m.Stalls env id node
    · exact Or.inl ((mark_quiet hlookup).trans (hstall hs).quiet)
    · rw [hgo hs]
      exact Or.inl (mark_quiet hlookup)
  | accepted | rejected reason =>
    cases h
    exact Or.inl (Quiet.refl m)

/-! ## A run -/

theorem Hosted.submitted {id : Uuid} {hosts : List ClusterNodeInfo} (h : m₀.Hosted inputs id hosts) :
    id ∈ inputs.filterMap fun x => x.2.submits := by
  obtain ⟨pre, env, top, post, m, rfl, -⟩ := h
  rw [List.mem_filterMap]
  exact ⟨(env, .message id (.newTopology top)), by simp, rfl⟩

/-- The last input is the topology, or the emulation was placed before. -/
theorem Hosted.of_snoc {id : Uuid} {hosts : List ClusterNodeInfo} {x : Env × Input}
    (h : m₀.Hosted (inputs ++ [x]) id hosts) (hm : m₀.acceptTopology (inputs ++ [x]) = .ok m) :
    m₀.Hosted inputs id hosts ∨
      (∃ top, x.2 = .message id (.newTopology top)) ∧ placesOf m.orchestrator id = some hosts := by
  obtain ⟨pre, env, top, post, m', hsplit, hm', hplaces⟩ := h
  rcases List.eq_nil_or_concat post with rfl | ⟨post, y, rfl⟩
  · obtain ⟨rfl, hx⟩ := List.append_inj' hsplit rfl
    obtain rfl := (List.cons.inj hx).1
    rw [hm] at hm'
    cases hm'
    exact Or.inr ⟨⟨top, rfl⟩, hplaces⟩
  · rw [List.concat_eq_append, ← List.cons_append, ← List.append_assoc] at hsplit
    obtain ⟨rfl, -⟩ := List.append_inj' hsplit rfl
    exact Or.inl ⟨pre, env, top, post, m', rfl, hm', hplaces⟩

/-- What the messages of the nodes rest on. -/
structure Ready (m₀ : OManager) (inputs : List (Env × Input)) (m : OManager) : Prop where
  accounted : m.orchestrator.Accounted
  submitted : ∀ u, m.orchestrator.emulations.lookup u ≠ none → u ∈ inputs.filterMap fun x => x.2.submits
  placed : ∀ u matrix p, m.orchestrator.emulations.lookup u = some (matrix, p) →
    p.length = matrix.n ∧ ∀ h ∈ p, h < m.orchestrator.residualGraph.n
  hosts : ∀ u hosts, m₀.Hosted inputs u hosts → ∀ h ∈ hosts, m.orchestrator.currentLoad.lookup h ≠ none
  apps : ∀ u hosts, m₀.Hosted inputs u hosts → ∀ matrix p,
    m.orchestrator.emulations.lookup u = some (matrix, p) → hosts.length = matrix.n
  nodes : ∀ u hosts, m₀.Hosted inputs u hosts → ∀ nodes,
    m.emulationsAndTheirNodes.lookup u = some nodes → ∀ h ∈ hosts, nodes.lookup h ≠ none

theorem Ready.quiet {x : Env × Input} (hm : Ready m₀ inputs m) (h : Quiet m m')
    (hacc : m'.orchestrator.Accounted) (hrun : m₀.acceptTopology (inputs ++ [x]) = .ok m')
    (hfresh : ((inputs ++ [x]).filterMap fun x => x.2.submits).Nodup) : Ready m₀ (inputs ++ [x]) m' := by
  have hold : ∀ u hosts, m₀.Hosted (inputs ++ [x]) u hosts → m₀.Hosted inputs u hosts := by
    intro u hosts hhosted
    refine (hhosted.of_snoc hrun).resolve_right fun ⟨⟨top, hx⟩, hplaces⟩ => ?_
    obtain ⟨e, he, -⟩ := Option.map_eq_some_iff.mp hplaces
    have hmem := hm.submitted u (by simp [h.emulations u e he])
    rw [List.filterMap_append, List.nodup_append] at hfresh
    exact hfresh.2.2 u hmem u (by simp [hx, Input.submits]) rfl
  refine ⟨hacc, fun u hu => ?_, fun u matrix p hu => ?_, fun u hosts hh n hn => ?_,
    fun u hosts hh matrix p hu => ?_, fun u hosts hh nodes' hu n hn => ?_⟩
  · obtain ⟨e, he⟩ := Option.ne_none_iff_exists'.mp hu
    rw [List.filterMap_append]
    exact List.mem_append_left _ (hm.submitted u (by simp [h.emulations u e he]))
  · rw [h.residual]
    exact hm.placed u matrix p (h.emulations u _ hu)
  · exact h.hosts n (hm.hosts u hosts (hold u hosts hh) n hn)
  · exact hm.apps u hosts (hold u hosts hh) matrix p (h.emulations u _ hu)
  · obtain ⟨nodes, hnodes, hkeys⟩ := h.nodes u nodes' hu
    exact hkeys n (hm.nodes u hosts (hold u hosts hh) nodes hnodes n hn)

theorem placesOf_placed {ar : Arith} {it : Iter} {o o' : Orchestrator} {id : Uuid}
    {matrix : SymMatrix Nat} {p : List Nat} {places : List ClusterNodeInfo}
    (h : Orchestrator.Placed ar it o id matrix p places o') : placesOf o' id = some places := by
  unfold placesOf
  rw [h.emulations, KeySet.lookup_put, if_pos rfl, h.cluster.hostMapping]
  have hlocated : ∀ (p : List Nat) (places : List ClusterNodeInfo),
      o.Places p places → p.filterMap (fun h => o.hostMapping[h]?) = places := by
    intro p places h
    induction h with
    | nil => rfl
    | cons hx _ ih => rw [List.filterMap_cons, hx, ih]
  rw [Option.map_some, hlocated p places h.located]

theorem lookup_foldl_put {V : Type} (v : V) (nodes : List ClusterNodeInfo) (table : HostMap V)
    (n : ClusterNodeInfo) : (nodes.foldl (fun acc n => acc.put n v) table).lookup n =
      if n ∈ nodes then some v else table.lookup n := by
  induction nodes generalizing table with
  | nil => simp
  | cons x nodes ih =>
    rw [List.foldl_cons, ih, KeySet.lookup_put]
    by_cases hx : n = x <;> by_cases hn : n ∈ nodes <;> simp [hx, hn]

theorem Ready.entered {x : Env × Input} {uuid : Uuid} {top : String} {network network' : Network Node}
    {o : Orchestrator} {nodes : List ClusterNodeInfo} (hm : Ready m₀ inputs m)
    (hx : x.2 = .message uuid (.newTopology top))
    (hplace : m.orchestrator.newEmulation x.1.ar x.1.it network uuid = .ok (o, some (network', nodes)))
    (hm' : m' = { m with
      orchestrator := o
      emulationsAndTheirNodes := m.emulationsAndTheirNodes.put uuid
        (nodes.foldl (fun acc n => acc.put n false) KeySet.empty) })
    (hrun : m₀.acceptTopology (inputs ++ [x]) = .ok m')
    (hfresh : ((inputs ++ [x]).filterMap fun x => x.2.submits).Nodup) : Ready m₀ (inputs ++ [x]) m' := by
  obtain ⟨matrix, p, places, hplaced, -, hmem⟩ := Orchestrator.newEmulation_some hplace
  subst hm'
  have hnew : uuid ∉ inputs.filterMap fun x => x.2.submits := by
    rw [List.filterMap_append, List.nodup_append] at hfresh
    intro hin
    exact hfresh.2.2 uuid hin uuid (by simp [hx, Input.submits]) rfl
  have hcases : ∀ u hosts, m₀.Hosted (inputs ++ [x]) u hosts →
      u ≠ uuid ∧ m₀.Hosted inputs u hosts ∨ u = uuid ∧ hosts = places := by
    intro u hosts hhosted
    rcases hhosted.of_snoc hrun with hold | ⟨⟨top', hx'⟩, hplaces⟩
    · exact Or.inl ⟨fun heq => hnew (heq ▸ hold.submitted), hold⟩
    · rw [hx] at hx'
      cases hx'
      rw [placesOf_placed hplaced] at hplaces
      exact Or.inr ⟨rfl, (Option.some.inj hplaces).symm⟩
  have hresidual : o.residualGraph.n = m.orchestrator.residualGraph.n :=
    forRange_ok_inv (fun r => r.n = m.orchestrator.residualGraph.n) rfl (fun i r r' hr h =>
      forRange_ok_inv (fun r => r.n = m.orchestrator.residualGraph.n) hr
        (fun j r r' hr h => (Orchestrator.reserve_n h).trans hr) h) hplaced.reserved
  have hlength : places.length = matrix.n := hplaced.located.length_eq.symm.trans hplaced.found.length
  refine ⟨hplaced.accounted hm.accounted, fun u hu => ?_, fun u matrix' p' hu => ?_,
    fun u hosts hh n hn => ?_, fun u hosts hh matrix' p' hu => ?_, fun u hosts hh nodes' hu n hn => ?_⟩
  · rw [List.filterMap_append, List.mem_append]
    simp only [hplaced.emulations, KeySet.lookup_put] at hu
    split at hu <;> rename_i heq
    · exact Or.inr (by simp [hx, Input.submits, heq])
    · exact Or.inl (hm.submitted u hu)
  · simp only [hplaced.emulations, KeySet.lookup_put] at hu
    simp only [hresidual]
    split at hu
    · cases hu
      exact ⟨hplaced.found.length, hplaced.found.lt⟩
    · exact hm.placed u matrix' p' hu
  · rw [hplaced.hosts]
    rcases hcases u hosts hh with ⟨-, hold⟩ | ⟨-, rfl⟩
    · exact Or.inl (hm.hosts u hosts hold n hn)
    · exact Or.inr hn
  · simp only [hplaced.emulations, KeySet.lookup_put] at hu
    rcases hcases u hosts hh with ⟨hne, hold⟩ | ⟨rfl, rfl⟩
    · rw [if_neg hne] at hu
      exact hm.apps u hosts hold matrix' p' hu
    · rw [if_pos rfl] at hu
      cases hu
      exact hlength
  · simp only [KeySet.lookup_put] at hu
    rcases hcases u hosts hh with ⟨hne, hold⟩ | ⟨rfl, rfl⟩
    · rw [if_neg hne] at hu
      exact hm.nodes u hosts hold nodes' hu n hn
    · rw [if_pos rfl] at hu
      cases hu
      rw [lookup_foldl_put, if_pos ((hmem n).mpr hn)]
      simp

theorem ready_of_run {it : Iter} {myInfo : ClusterNodeInfo} {omanagerPort emanagerPort maxLoad : Nat}
    {graph : CGraph ClusterNodeInfo}
    (hbuild : build it myInfo omanagerPort emanagerPort graph maxLoad = .ok m₀)
    (hmessages : ∀ x ∈ inputs, x.2.isMessage = true)
    (hfresh : (inputs.filterMap fun x => x.2.submits).Nodup)
    (h : m₀.acceptTopology inputs = .ok m) : Ready m₀ inputs m := by
  obtain ⟨hacc, hemulations, -⟩ := build_ok hbuild
  have hnone : ∀ u hosts, ¬ m₀.Hosted [] u hosts := fun u hosts hh => by
    simpa using hh.submitted
  refine acceptTopology_inv (fun pre m => Ready m₀ pre m)
    ⟨hacc, by simp [hemulations], by simp [hemulations], fun u hosts hh => absurd hh (hnone u hosts),
      fun u hosts hh => absurd hh (hnone u hosts), fun u hosts hh => absurd hh (hnone u hosts)⟩
    (fun pre x post m m' hx hpre hm hstep => ?_) h
  have hrun : m₀.acceptTopology (pre ++ [x]) = .ok m' := by
    unfold acceptTopology at hpre ⊢
    rw [List.foldlM_append, hpre, bind_ok, List.foldlM_cons, hstep]
    rfl
  have hfresh' : ((pre ++ [x]).filterMap fun x => x.2.submits).Nodup := by
    rw [hx, List.append_cons, List.filterMap_append] at hfresh
    exact (List.nodup_append.mp hfresh).1
  have hmessage := hmessages x (by rw [hx]; simp)
  obtain ⟨env, input⟩ := x
  cases input with
  | update update => cases hmessage
  | message uuid message =>
    rcases handleExperimentMessage_cases hstep with hquiet | ⟨top, o, network, network', nodes, rfl,
      hplace, hm'⟩
    · exact hm.quiet hquiet (handle_accounted hm.accounted hstep) hrun hfresh'
    · exact hm.entered rfl hplace hm' hrun hfresh'

end OManager

open OManager

/-- Handling what a node sends comes back exactly when the node is still waited for. -/
theorem survives {it : Iter} {myInfo : ClusterNodeInfo} {omanagerPort emanagerPort maxLoad : Nat}
    {graph : CGraph ClusterNodeInfo} {m₀ m : OManager} {inputs : List (Env × Input)} {env : Env}
    {uuid : Uuid} {message : OManagerMessage}
    (hbuild : build it myInfo omanagerPort emanagerPort graph maxLoad = .ok m₀)
    (hmessages : ∀ x ∈ inputs, x.2.isMessage = true)
    (hfresh : (inputs.filterMap fun x => x.2.submits).Nodup)
    (h : m₀.acceptTopology inputs = .ok m) (hsent : m₀.Sends inputs message) :
    Returns (m.handleExperimentMessage env uuid message).result (fun _ => True) ↔
      m.Survives env message := by
  have hready := ready_of_run hbuild hmessages hfresh h
  cases message with
  | newTopology top => cases hsent
  | accepted => cases hsent
  | rejected reason => cases hsent
  | abort id => exact iff_of_true ((onAbort_spec id).mono fun _ _ => trivial) trivial
  | emulationReady id node =>
    obtain ⟨hosts, hhosted, hnode⟩ := hsent
    refine onEmulationReady_returns.trans (exists_congr fun nodes => and_congr_right fun hlookup => ?_)
    exact and_iff_right (hready.nodes id hosts hhosted nodes hlookup node hnode)
  | cleanStop id node appIndex =>
    obtain ⟨hosts, hhosted, happ⟩ := hsent
    obtain ⟨hlt, rfl⟩ := List.getElem?_eq_some_iff.mp happ
    cases hemul : m.orchestrator.emulations.lookup id with
    | none =>
      refine iff_of_true ⟨m, ?_, trivial⟩ fun _ matrix p hsome => ?_
      · show (m.onCleanStop env id hosts[appIndex] appIndex).result = .ok m
        unfold onCleanStop Orchestrator.stopAppEmulationOn
        rw [KeySet.get?_eq_lookup, hemul]
        rfl
      · rw [hemul] at hsome
        cases hsome
    | some entry =>
      obtain ⟨matrix, p⟩ := entry
      obtain ⟨hlen, hp⟩ := hready.placed id matrix p hemul
      have hsize := hready.apps id hosts hhosted matrix p hemul
      have hnode := hready.hosts id hosts hhosted hosts[appIndex] (List.getElem_mem hlt)
      refine Iff.trans ?_ (Orchestrator.stopAppEmulationOn_returns hready.accounted hemul hlen hp
        (by omega) hnode)
      constructor
      · rintro ⟨m', hm', -⟩
        rcases onCleanStop_ok hm' with ⟨hnone, -⟩ | ⟨o, hstop, -⟩
        · rw [hemul] at hnone
          cases hnone
        · exact ⟨o, hstop, trivial⟩
      · rintro ⟨o, ho, -⟩
        refine ⟨{ m with orchestrator := o }, ?_, trivial⟩
        show (m.onCleanStop env id hosts[appIndex] appIndex).result = _
        unfold onCleanStop
        rw [ho]
        rfl

theorem survives_demo : ∃ m₀ m, (demoManager 2 4 = .ok m₀ ∧
    m₀.acceptTopology [(demoEnv 100 [], .message ⟨1⟩ (.newTopology ""))] = .ok m) ∧
    Returns (m.handleExperimentMessage (demoEnv 100 []) ⟨2⟩
      (.emulationReady ⟨1⟩ (demoHost 1 9092))).result fun _ => True := by
  obtain ⟨graph, hgraph, m₀, hbuild, m, hm, hplaces, nodes, hnodes, hwait⟩ :
      Returns (demoCluster 2 1000) fun graph =>
        Returns (build .inOrder (demoHost 0 9090) 9091 9092 graph 4) fun m₀ =>
          Returns (m₀.acceptTopology [(demoEnv 100 [], .message ⟨1⟩ (.newTopology ""))]) fun m =>
            placesOf m.orchestrator ⟨1⟩ = some [demoHost 0 9092, demoHost 1 9092] ∧
            Returns (unwrap (m.emulationsAndTheirNodes.lookup ⟨1⟩)) fun nodes =>
              (nodes.put (demoHost 1 9092) true).elems.all Prod.snd = false := by
    decide +kernel
  have hsent : m₀.Sends [(demoEnv 100 [], .message ⟨1⟩ (.newTopology ""))]
      (.emulationReady ⟨1⟩ (demoHost 1 9092)) :=
    ⟨_, ⟨[], _, _, [], m, rfl, hm, hplaces⟩, by simp⟩
  refine ⟨m₀, m, ⟨?_, hm⟩, (survives hbuild (by simp [Input.isMessage]) (by simp [Input.submits]) hm
    hsent).mpr ⟨nodes, unwrap_eq_ok.mp hnodes, ?_⟩⟩
  · unfold demoManager
    rw [hgraph, bind_ok, hbuild]
  · rw [hwait]
    nofun

/-- A node gets ready after the other one has aborted their emulation. -/
theorem ready_after_abort : ∃ m₀ m, (demoManager 2 4 = .ok m₀ ∧
    m₀.acceptTopology [(demoEnv 100 [], .message ⟨1⟩ (.newTopology "")),
      (demoEnv 100 [], .message ⟨2⟩ (.abort ⟨1⟩))] = .ok m ∧
    m₀.Sends [(demoEnv 100 [], .message ⟨1⟩ (.newTopology "")),
      (demoEnv 100 [], .message ⟨2⟩ (.abort ⟨1⟩))] (.emulationReady ⟨1⟩ (demoHost 1 9092))) ∧
    (m.handleExperimentMessage (demoEnv 100 []) ⟨3⟩
      (.emulationReady ⟨1⟩ (demoHost 1 9092))).result = .error .unwrap := by
  obtain ⟨m₀, hm₀, ⟨m₁, hm₁, hplaces⟩, m, hm, hfault⟩ : Returns (demoManager 2 4) fun m₀ =>
      Returns (m₀.acceptTopology [(demoEnv 100 [], .message ⟨1⟩ (.newTopology ""))]) (fun m =>
        placesOf m.orchestrator ⟨1⟩ = some [demoHost 0 9092, demoHost 1 9092]) ∧
      Returns (m₀.acceptTopology [(demoEnv 100 [], .message ⟨1⟩ (.newTopology "")),
        (demoEnv 100 [], .message ⟨2⟩ (.abort ⟨1⟩))]) fun m =>
          (m.handleExperimentMessage (demoEnv 100 []) ⟨3⟩
            (.emulationReady ⟨1⟩ (demoHost 1 9092))).result = .error .unwrap := by
    decide +kernel
  exact ⟨m₀, m, ⟨hm₀, hm, _, ⟨[], _, _, _, m₁, rfl, hm₁, hplaces⟩, by simp⟩, hfault⟩

end Pubapi

end Kollaps
