import Kollaps.Emulcore.Runs

/-!
# A crash is final

Once an app has crashed and its `CleanStop` is sent, nothing more should go to its reporter and
no second `CleanStop` for it. The code keeps to this while no crashed app is the target of a
quit or a crash, or the source of a flow, and an app that crashes has no flow in use.
-/

namespace Kollaps

open Run Act

namespace Emulcore

/-- The `CleanStop` of the app. -/
def Effect.reports (app : Node) : Effect → Prop
  | .cleanStop a _ _ _ _ => Vertex.id a = Vertex.id app
  | _ => False

def Effect.concerns (app : Node) : Effect → Prop
  | .toReporter a _ => Vertex.id a = Vertex.id app
  | .cleanStop a _ _ _ _ => Vertex.id a = Vertex.id app
  | _ => False

instance (app : Node) (e : Effect) : Decidable (e.reports app) := by
  cases e <;> unfold Effect.reports <;> infer_instance

instance (app : Node) (e : Effect) : Decidable (e.concerns app) := by
  cases e <;> unfold Effect.concerns <;> infer_instance

theorem Effect.reports.concerns {app : Node} {e : Effect} (h : e.reports app) : e.concerns app := by
  cases e with
  | cleanStop => exact h
  | _ => exact h.elim

/-- What comes after the `CleanStop` of an app does not concern the app. -/
def After (e e' : Effect) : Prop := ∀ app, e.reports app → ¬ e'.concerns app

def Loop.statusOf (s : Loop) (app : Node) : Option AppStatus :=
  (s.myApps.get? (Vertex.id app)).map Prod.snd

/-- No quit and no crash of a crashed app, no flow from one, and no flow in use from an app that
crashes. -/
def Admits (core : EmulCore) (s : Loop) : EmulMessage → Prop
  | .flowUpdate conf => ∀ flow props, About core conf flow props →
      s.statusOf flow.source ≠ some .crashed
  | .event event => ∀ p ∈ s.myApps.elems, p.1.isSameById event.appId = true →
      match event.action with
      | .join => True
      | .quit => p.2 ≠ .crashed
      | .crash => p.2 ≠ .crashed ∧
          ∀ f ∈ s.activeFlows.elems, Vertex.id f.source = Vertex.id p.1 → f.usedBandwidth = 0
  | _ => True

/-! ## Logs that nothing reports in -/

/-- Nothing is reported, and only apps that pass the test are sent anything. -/
def Only (may : Node → Prop) (e : Effect) : Prop :=
  ∀ app, ¬ e.reports app ∧ (e.concerns app → may app)

theorem Only.mono {may may' : Node → Prop} {e : Effect} (h : Only may e)
    (hm : ∀ app, may app → may' app) : Only may' e :=
  fun app => ⟨(h app).1, fun hc => hm app ((h app).2 hc)⟩

theorem only_toReporter {app : Node} {m : EmulMessage} {may : Node → Prop}
    (h : ∀ a, Vertex.id app = Vertex.id a → may a) : Only may (.toReporter app m) :=
  fun a => ⟨fun hr => hr, h a⟩

theorem only_toHost {may : Node → Prop} {host : ClusterNodeInfo} {id : Uuid} {m : EmulMessage} :
    Only may (.toHost host id m) :=
  fun _ => ⟨fun h => h, fun h => h.elim⟩

theorem only_stopContainer {may : Node → Prop} {name : String} : Only may (.stopContainer name) :=
  fun _ => ⟨fun h => h, fun h => h.elim⟩

theorem removeAllFlowsFrom_only (it : Iter) (ar : Arith) (core : EmulCore) (flows : FlowSet Node)
    (bw : Network Node) (node : Node) {may : Node → Prop} :
    Does (removeAllFlowsFrom it ar core flows bw node) (Only may) fun _ => True :=
  removeAllFlowsFrom_does (fun _ _ _ => only_toHost) it ar core flows bw node

theorem announceFlow_only (it : Iter) (core : EmulCore) (myApps : AppMap) (flow : Flow Node)
    (props : Network.Properties) (conf : FlowConf) {may : Node → Prop}
    (h : ∀ a, Vertex.id flow.source = Vertex.id a → may a) :
    Does (announceFlow it core myApps flow props conf) (Only may) fun _ => True :=
  announceFlow_does (fun _ _ _ => only_toHost) it core myApps props conf fun _ _ happ _ =>
    only_toReporter fun a ha => h a (happ.symm.trans ha)

theorem refresh_only (it : Iter) (core : EmulCore) (s : Loop) {may : Node → Prop}
    (h : ∀ f ∈ s.activeFlows.elems, ∀ a, Vertex.id f.source = Vertex.id a → may a) :
    Does (refresh it core s) (Only may) fun _ => True :=
  refresh_does it core s fun f hf _ _ _ happ _ _ _ =>
    only_toReporter fun a ha => h f hf a (happ.symm.trans ha)

/-! ## What a message may do -/

theorem statusOf_congr (s : Loop) {a b : Node} (h : Vertex.id a = Vertex.id b) :
    s.statusOf a = s.statusOf b := by
  rw [Loop.statusOf, Loop.statusOf, h]

theorem statusOf_put (s : Loop) (node : Node) (status : AppStatus) (app : Node) (flows : FlowSet Node)
    (bw : Network Node) : (⟨s.myApps.put node status, flows, bw⟩ : Loop).statusOf app =
      if Vertex.id app = Vertex.id node then some status else s.statusOf app := by
  rw [Loop.statusOf, KeySet.get?_put]
  split <;> rfl

theorem statusOf_of_target {it : Iter} {s : Loop} {event : EmulationEvent} {p : Node × AppStatus}
    (h : target it s event = some p) :
    p ∈ s.myApps.elems ∧ p.1.isSameById event.appId = true ∧ s.statusOf p.1 = some p.2 := by
  have hmem := List.mem_of_getLast? h
  rw [List.mem_filter, it.mem_order] at hmem
  have hget : s.myApps.get? (Vertex.id p.1) = some p := KeySet.get?_eq_some.mpr ⟨hmem.1, rfl⟩
  exact ⟨hmem.1, hmem.2, by rw [Loop.statusOf, hget]; rfl⟩

def Loop.Alive (s : Loop) (app : Node) : Prop := s.statusOf app ≠ some .crashed

theorem Loop.Alive.congr {s : Loop} {a b : Node} (h : s.Alive a) (hk : Vertex.id a = Vertex.id b) :
    s.Alive b := by
  rw [Loop.Alive, ← statusOf_congr s hk]
  exact h

theorem onFlowUpdate_only {it : Iter} {ar : Arith} {core : EmulCore} {s : Loop} {conf : FlowConf}
    (h : Admits core s (.flowUpdate conf)) :
    Does (onFlowUpdate it ar core s conf) (Only s.Alive) fun _ => True := by
  unfold onFlowUpdate
  cases hsrc : core.ipToApp.get? conf.src with
  | none => exact Does.pure trivial
  | some a =>
    cases hdest : core.ipToApp.get? conf.dest with
    | none => exact Does.pure trivial
    | some b =>
      obtain ⟨src, rfl⟩ : ∃ n, a = (conf.src, n) := ⟨a.2, Prod.ext (KeySet.key_of_get? hsrc) rfl⟩
      obtain ⟨dest, rfl⟩ : ∃ n, b = (conf.dest, n) := ⟨b.2, Prod.ext (KeySet.key_of_get? hdest) rfl⟩
      refine Does.bind_lift fun o ho => ?_
      cases o with
      | none => exact Does.lift fun _ _ => trivial
      | some props =>
        have halive : s.Alive src :=
          h (newFlow src dest props conf.throughput) props ⟨hsrc, hdest, ho, rfl⟩
        refine Does.bind_lift fun r _ => ?_
        refine (announceFlow_only it core s.myApps _ props conf fun a ha => ?_).bind fun _ _ =>
          Does.pure trivial
        exact halive.congr ha

theorem tellJoin_only (it : Iter) (core : EmulCore) {s : Loop} {node : Node} {status : AppStatus}
    (h : s.statusOf node = some status) :
    Does (tellJoin it core node status) (Only s.Alive) fun _ => True := by
  have halive : status ≠ .crashed → s.Alive node := fun hne heq =>
    hne (Option.some.inj (h.symm.trans heq))
  cases status with
  | notInit =>
    exact initPaths_does it core node fun _ _ =>
      only_toReporter fun a ha => (halive (by decide)).congr ha
  | stopped => exact Does.emit (only_toReporter fun a ha => (halive (by decide)).congr ha) trivial
  | running => exact Does.pure trivial
  | crashed => exact Does.pure trivial

theorem onCrash_endsWith (it : Iter) (ar : Arith) (core : EmulCore) {s : Loop} {node : Node}
    (h : s.Alive node) : EndsWith (onCrash it ar core s node) (Only s.Alive) fun e =>
      ∃ index, e = .cleanStop node core.clusterLeader core.emulId core.myself index := by
  unfold onCrash
  refine .bind (removeAllFlowsFrom_only it ar core s.activeFlows s.bwGraph node) fun r _ => ?_
  refine .bind (Does.emit (Q := fun _ => True) (only_toReporter fun a ha => h.congr ha) trivial)
    fun _ _ => ?_
  refine .bind (stopAppIfNecessary_does node fun _ => only_stopContainer) fun _ _ => ?_
  refine .bind (Q := fun _ => True) (Does.lift fun _ _ => trivial) fun app _ => ?_
  refine .bind (Q := fun _ => True) (Does.lift fun _ _ => trivial) fun index _ => ?_
  exact .emit ⟨index, rfl⟩

theorem onQuit_only (it : Iter) (ar : Arith) (core : EmulCore) {s : Loop} {node : Node}
    (h : s.Alive node) : Does (onQuit it ar core s node) (Only s.Alive) fun _ => True := by
  unfold onQuit
  refine (removeAllFlowsFrom_only it ar core s.activeFlows s.bwGraph node).bind fun r _ => ?_
  refine (Does.emit (Q := fun _ => True) (only_toReporter fun a ha => h.congr ha) trivial).bind
    fun _ _ => Does.pure trivial

/-- A message that is admitted either reports nothing and crashes nobody, or it is the crash of
an app that has not crashed. -/
theorem handle_log (it : Iter) (ar : Arith) {core : EmulCore} {s : Loop} {m : EmulMessage}
    (h : Admits core s m) :
    (Does (handle it ar core s m) (Only s.Alive) fun s' => ∀ app, s'.Alive app ↔ s.Alive app) ∨
    ∃ node, s.Alive node ∧ handle it ar core s m = onCrash it ar core s node ∧
      ∀ f ∈ s.activeFlows.elems, Vertex.id f.source = Vertex.id node → f.usedBandwidth = 0 := by
  have hsame : ∀ {act : Act Effect Loop}, Does act (Only s.Alive) (fun _ => True) →
      (∀ s', act.result = .ok s' → ∀ app, s'.Alive app ↔ s.Alive app) →
      Does act (Only s.Alive) fun s' => ∀ app, s'.Alive app ↔ s.Alive app :=
    fun hd hr => ⟨hd.log, hr⟩
  -- A new status that is not `crashed`, for an app that has not crashed.
  have hput : ∀ {node : Node} {status : AppStatus} {flows : FlowSet Node} {bw : Network Node},
      s.Alive node → status ≠ .crashed → ∀ app,
        (⟨s.myApps.put node status, flows, bw⟩ : Loop).Alive app ↔ s.Alive app := by
    intro node status flows bw halive hne app
    rw [Loop.Alive, statusOf_put]
    split <;> rename_i hk
    · exact iff_of_true (fun heq => hne (Option.some.inj heq)) (halive.congr hk.symm)
    · rfl
  cases m with
  | flowUpdate conf =>
    refine Or.inl (hsame (onFlowUpdate_only h) fun s' hs' app => ?_)
    rcases onFlowUpdate_cases hs' with ⟨rfl, -⟩ | ⟨flow, props, -, happs, -⟩
    · rfl
    · rw [Loop.Alive, Loop.statusOf, happs]
      rfl
  | event event =>
    show (Does (onEvent it ar core s event) _ _) ∨ ∃ node, _ ∧ onEvent it ar core s event = _ ∧ _
    unfold onEvent
    cases ht : target it s event with
    | none => exact Or.inl (Does.pure fun _ => Iff.rfl)
    | some p =>
      obtain ⟨node, status⟩ := p
      obtain ⟨hmem, hid, hstatus⟩ := statusOf_of_target ht
      have hmeets := h _ hmem hid
      have halive : status ≠ .crashed → s.Alive node := fun hne heq =>
        hne (Option.some.inj (hstatus.symm.trans heq))
      cases hact : event.action with
      | join =>
        refine Or.inl (hsame ?_ fun s' hs' => ?_)
        · refine (tellJoin_only it core hstatus).bind fun _ _ => ?_
          cases status <;> exact Does.pure trivial
        · rcases onJoin_cases hs' with rfl | ⟨hne, rfl⟩
          · exact fun _ => Iff.rfl
          · exact hput (halive hne) (by decide)
      | quit =>
        rw [hact] at hmeets
        refine Or.inl (hsame (onQuit_only it ar core (halive hmeets)) fun s' hs' => ?_)
        obtain ⟨apps, flows, bw⟩ := s'
        obtain rfl : apps = _ := (onQuit_cases hs').2
        exact hput (halive hmeets) (by decide)
      | crash =>
        rw [hact] at hmeets
        exact Or.inr ⟨node, halive hmeets.1, rfl, hmeets.2⟩
  | _ => exact Or.inl (Does.pure fun _ => Iff.rfl)

/-! ## The flows of crashed apps -/

def NoneCrashed (core : EmulCore) (s : Loop) : Prop :=
  ∀ f ∈ s.activeFlows.elems, core.graph.cells f.source f.destination ≠ [] ∧ s.Alive f.source

theorem exists_of_contains {flows : FlowSet Node} {k : Vertex.Id Node × Vertex.Id Node}
    (h : flows.contains k = true) : ∃ f ∈ flows.elems, f.key = k :=
  List.mem_map.mp (KeySet.contains_iff.mp h)

theorem noneCrashed_congr {core : EmulCore} {s : Loop} {f h : Flow Node} (hk : f.key = h.key)
    (hf : core.graph.cells f.source f.destination ≠ [] ∧ s.Alive f.source) :
    core.graph.cells h.source h.destination ≠ [] ∧ s.Alive h.source :=
  ⟨Bwsync.cells_congr core.graph hk ▸ hf.1, hf.2.congr (congrArg Prod.fst hk)⟩

theorem applyFlow_keys {it : Iter} {ar : Arith} {core : EmulCore} (hg : core.graph.Wf) {s : Loop}
    (h : NoneCrashed core s) {flow : Flow Node}
    (hcells : core.graph.cells flow.source flow.destination ≠ []) {s' : FlowSet Node × Network Node}
    (he : applyFlow it ar core s flow = .ok s') (k : Vertex.Id Node × Vertex.Id Node)
    (hk : s'.1.contains k = true) : s.activeFlows.contains k = true ∨ k = flow.key := by
  have hknown : ∀ f ∈ s.activeFlows.elems, Bwsync.Known core.graph f := fun f hf =>
    Bwsync.known_of_cells (h f hf).1
  have hflow := Bwsync.known_of_cells hcells
  unfold applyFlow at he
  split at he
  · split at he
    · rw [Bwsync.removeFlow_keys hg (fun f hf _ => hknown f hf) hflow he] at hk
      exact hk.imp And.left And.left
    · cases he
      exact Or.inl hk
  · rcases Bwsync.updateFlows_keys hg hknown hflow he with rfl | hkeys
    · exact Or.inl hk
    · exact ((hkeys k).mp hk).imp id And.left

theorem handle_noneCrashed {it : Iter} {ar : Arith} {core : EmulCore} (hg : core.graph.Wf)
    {s s' : Loop} {m : EmulMessage} (hmeets : Admits core s m) (h : NoneCrashed core s)
    (he : (handle it ar core s m).result = .ok s') : NoneCrashed core s' := by
  have hcells : ∀ f ∈ s.activeFlows.elems, core.graph.cells f.source f.destination ≠ [] :=
    fun f hf => (h f hf).1
  rcases handle_log it ar hmeets with hdoes | ⟨node, halive, heq, hunused⟩
  · have hsame := hdoes.result s' he
    suffices hflows : ∀ f ∈ s'.activeFlows.elems,
        core.graph.cells f.source f.destination ≠ [] ∧ s.Alive f.source from
      fun f hf => ⟨(hflows f hf).1, (hsame _).mpr (hflows f hf).2⟩
    intro f hf
    have hold : s.activeFlows.contains f.key = true →
        core.graph.cells f.source f.destination ≠ [] ∧ s.Alive f.source := by
      intro hin
      obtain ⟨f₀, hf₀, hk⟩ := exists_of_contains hin
      exact noneCrashed_congr hk (h f₀ hf₀)
    cases m with
    | flowUpdate conf =>
      rcases onFlowUpdate_cases he with ⟨rfl, -⟩ | ⟨flow, props, ha, -, happly, -⟩
      · exact h f hf
      · have hc := (ha.served hg).cells
        rcases applyFlow_keys hg h hc happly f.key (KeySet.contains_key hf) with hin | hk
        · exact hold hin
        · exact noneCrashed_congr hk.symm ⟨hc, hmeets flow props ha⟩
    | event event =>
      have he' : (onEvent it ar core s event).result = .ok s' := he
      unfold onEvent at he'
      split at he'
      · cases he'
        exact h f hf
      · split at he'
        · rcases onJoin_cases he' with rfl | ⟨-, rfl⟩ <;> exact h f hf
        · exact hold ((removeAllFlowsFrom_keys hg hcells (onQuit_cases he').1 f.key).mp
            (KeySet.contains_key hf)).1
        · exact hold ((removeAllFlowsFrom_keys hg hcells (onCrash_cases he').1 f.key).mp
            (KeySet.contains_key hf)).1
    | _ => cases he; exact h f hf
  · rw [heq] at he
    obtain ⟨hremove, happs⟩ := onCrash_cases he
    intro f hf
    obtain ⟨hin, hgone⟩ := (removeAllFlowsFrom_keys hg hcells hremove f.key).mp (KeySet.contains_key hf)
    obtain ⟨f₀, hf₀, hk⟩ := exists_of_contains hin
    have hne : Vertex.id f.source ≠ Vertex.id node := fun heq' =>
      hgone f₀ hf₀ ((congrArg Prod.fst hk).trans heq')
        (hunused f₀ hf₀ ((congrArg Prod.fst hk).trans heq')) hk
    obtain ⟨hc, ha⟩ := noneCrashed_congr hk (h f₀ hf₀)
    obtain ⟨apps, flows, bw⟩ := s'
    obtain rfl : apps = _ := happs
    exact ⟨hc, by rw [Loop.Alive, statusOf_put, if_neg hne]; exact ha⟩

/-! ## Runs -/

/-- What holds between two messages: who has been reported has crashed, and has no flow. -/
structure CrashInv (core : EmulCore) (s : Loop) (log : List Effect) : Prop where
  after : log.Pairwise After
  reported : ∀ app, ¬ s.Alive app ↔ ∃ e ∈ log, e.reports app
  flows : NoneCrashed core s

/-- What one message adds to the log. -/
structure RoundInv (s : Loop) (es : List Effect) : Prop where
  after : es.Pairwise After
  alive : ∀ e ∈ es, ∀ app, e.concerns app → s.Alive app

theorem Only.after {may : Node → Prop} {es : List Effect} (h : ∀ e ∈ es, Only may e) :
    es.Pairwise After :=
  List.pairwise_of_forall_mem_list fun e he _ _ app hr => absurd hr (h e he app).1

theorem RoundInv.of_only {s : Loop} {es : List Effect} (h : ∀ e ∈ es, Only s.Alive e) :
    RoundInv s es :=
  ⟨Only.after h, fun e he app hc => (h e he app).2 hc⟩

theorem handle_roundInv (it : Iter) (ar : Arith) {core : EmulCore} {s : Loop} {m : EmulMessage}
    (h : Admits core s m) : RoundInv s (handle it ar core s m).log ∧
      ∀ s', (handle it ar core s m).result = .ok s' → ∀ app,
        ¬ s'.Alive app ↔ ¬ s.Alive app ∨ ∃ e ∈ (handle it ar core s m).log, e.reports app := by
  rcases handle_log it ar h with hdoes | ⟨node, halive, heq, -⟩
  · refine ⟨.of_only hdoes.log, fun s' hs' app => ?_⟩
    rw [hdoes.result s' hs' app]
    refine ⟨Or.inl, fun h => h.elim id ?_⟩
    rintro ⟨e, he, hr⟩
    exact absurd hr (hdoes.log e he app).1
  · rw [heq]
    rcases onCrash_endsWith it ar core halive with ⟨e, he, hlog⟩ | ⟨s', pre, last, hs', hlog, hpre,
      index, rfl⟩
    · exact ⟨.of_only hlog, fun s' hs' => by rw [he] at hs'; cases hs'⟩
    · rw [hlog]
      refine ⟨⟨?_, ?_⟩, ?_⟩
      · rw [List.pairwise_append]
        exact ⟨Only.after hpre, List.pairwise_singleton _ _,
          fun e he _ _ app hr => absurd hr (hpre e he app).1⟩
      · intro e he app hc
        rcases List.mem_append.mp he with he | he
        · exact (hpre e he app).2 hc
        · rw [List.mem_singleton.mp he] at hc
          exact halive.congr hc
      · intro s'' hs'' app
        obtain ⟨-, happs⟩ := onCrash_cases hs''
        obtain ⟨apps, flows, bw⟩ := s''
        obtain rfl : apps = _ := happs
        rw [Loop.Alive, statusOf_put]
        split <;> rename_i hk
        · refine iff_of_true (fun hne => hne rfl)
            (Or.inr ⟨_, List.mem_append_right _ (List.mem_singleton_self _), ?_⟩)
          exact hk.symm
        · refine ⟨Or.inl, fun h => h.elim id ?_⟩
          rintro ⟨e, he, hr⟩
          rcases List.mem_append.mp he with he | he
          · exact absurd hr (hpre e he app).1
          · rw [List.mem_singleton.mp he] at hr
            exact absurd hr.symm hk

theorem CrashInv.round (it : Iter) (ar : Arith) {core : EmulCore} (hg : core.graph.Wf) {s : Loop}
    {log : List Effect} (h : CrashInv core s log) {m : EmulMessage} (hmeets : Admits core s m) :
    (log ++ (flowRound it ar core s m).log).Pairwise After ∧
    (∀ e ∈ (flowRound it ar core s m).log, ∀ app, ¬ s.Alive app → ¬ e.concerns app) ∧
    ∀ s', (handle it ar core s m).result = .ok s' →
      (flowRound it ar core s m).log = (handle it ar core s m).log ++ (refresh it core s').log →
        CrashInv core s' (log ++ (flowRound it ar core s m).log) := by
  obtain ⟨hround, hreported⟩ := handle_roundInv it ar hmeets
  -- What is reported so far is not concerned by what an iteration does.
  have hcross : ∀ {es : List Effect}, (∀ e ∈ es, ∀ app, ¬ s.Alive app → ¬ e.concerns app) →
      ∀ e ∈ log, ∀ e' ∈ es, After e e' :=
    fun hes e he e' he' app hr => hes e' he' app ((h.reported app).mpr ⟨e, he, hr⟩)
  have hhandle : ∀ e ∈ (handle it ar core s m).log, ∀ app, ¬ s.Alive app → ¬ e.concerns app :=
    fun e he app hdead hc => hdead (hround.alive e he app hc)
  rcases log_flowRound it ar core s m with ⟨err, herr, hlog⟩ | ⟨s', hs', hlog⟩
  · rw [hlog]
    refine ⟨List.pairwise_append.mpr ⟨h.after, hround.after, hcross hhandle⟩, hhandle, ?_⟩
    intro s' hs'
    rw [herr] at hs'
    cases hs'
  · have hflows := handle_noneCrashed hg hmeets h.flows hs'
    have hrefresh := (refresh_only it core s' fun f hf a ha => (hflows f hf).2.congr ha).log
    have hdead : ∀ app, ¬ s.Alive app → ¬ s'.Alive app := fun app hd =>
      (hreported s' hs' app).mpr (Or.inl hd)
    have hall : ∀ e ∈ (handle it ar core s m).log ++ (refresh it core s').log, ∀ app,
        ¬ s.Alive app → ¬ e.concerns app := by
      intro e he app hd hc
      rcases List.mem_append.mp he with he | he
      · exact hhandle e he app hd hc
      · exact hdead app hd ((hrefresh e he app).2 hc)
    have hpair : (log ++ ((handle it ar core s m).log ++ (refresh it core s').log)).Pairwise After := by
      refine List.pairwise_append.mpr ⟨h.after, List.pairwise_append.mpr
        ⟨hround.after, Only.after hrefresh, fun e he e' he' app hr hc => ?_⟩, hcross hall⟩
      exact (hreported s' hs' app).mpr (Or.inr ⟨e, he, hr⟩) ((hrefresh e' he' app).2 hc)
    rw [hlog]
    refine ⟨hpair, hall, fun s'' hs'' _ => ?_⟩
    obtain rfl : s' = s'' := Except.ok.inj (hs'.symm.trans hs'')
    refine ⟨hpair, fun app => ?_, hflows⟩
    rw [hreported s' hs', h.reported]
    simp only [List.mem_append, or_and_right, exists_or]
    refine or_congr_right ⟨Or.inl, fun h => h.elim id ?_⟩
    rintro ⟨e, he, hr⟩
    exact absurd hr (hrefresh e he app).1

theorem Init.crashInv {g : Network Node} {core : EmulCore} {c : Config} (h : Init g core c) :
    CoreInv g core ∧ c.log.Pairwise After ∧ ∀ s, c.phase.loop = some s → CrashInv core s c.log := by
  cases h with
  | @mk _ _ _ _ apps it hnew happs =>
    have hdoes := (initEmulation_does it core (P := Only fun _ => True) fun _ _ =>
      only_toReporter fun _ _ => trivial).log
    have hafter := Only.after hdoes
    refine ⟨(new_inv hnew).1, hafter, ?_⟩
    rintro s ⟨⟩
    refine ⟨hafter, fun app => iff_of_false (fun hdead => hdead ?_) ?_, by simp [NoneCrashed, start]⟩
    · intro hcrashed
      rw [Loop.statusOf, Option.map_eq_some_iff] at hcrashed
      obtain ⟨p, hp, hp'⟩ := hcrashed
      have hmem : p ∈ apps.elems := KeySet.mem_of_get? hp
      rw [((initEmulation_apps happs).1 p hmem).1] at hp'
      cases hp'
    · rintro ⟨e, he, hr⟩
      exact (hdoes e he app).1 hr

theorem Step.crash {ar : Arith} {core : EmulCore} (hg : core.graph.Wf) {c c' : Config}
    (hstep : Step ar core (Admits core) c c')
    (h : ∀ s, c.phase.loop = some s → CrashInv core s c.log) :
    c'.log.Pairwise After ∧ (∀ s, c'.phase.loop = some s → CrashInv core s c'.log) ∧
      ∃ s es, c.phase.loop = some s ∧ c'.log = c.log ++ es ∧
        ∀ e ∈ es, ∀ app, ¬ s.Alive app → ¬ e.concerns app := by
  obtain ⟨s, it, m, hphase, hmeets, hlog, hnext⟩ := hstep.handled
  have hloop : c.phase.loop = some s := by rw [hphase]; rfl
  obtain ⟨hafter, hquiet, hinv⟩ := (h s hloop).round it ar hg hmeets
  rw [hlog]
  exact ⟨hafter, fun s' hs' => hinv s' (hnext s' hs').1 (hnext s' hs').2, s, _, hloop, rfl, hquiet⟩

theorem Reach.crashInv {ar : Arith} {g : Network Node} (hg : g.Wf) {core : EmulCore} {c : Config}
    (h : Reach ar g (Admits core) core c) : core.graph.Wf ∧ c.log.Pairwise After ∧
      ∀ s, c.phase.loop = some s → CrashInv core s c.log := by
  obtain ⟨c₀, hinit, hsteps⟩ := h
  obtain ⟨hc, hinv⟩ := hinit.crashInv
  have hg' : core.graph.Wf := hc.graph ▸ hg
  refine ⟨hg', ?_⟩
  induction hsteps with
  | refl => exact hinv
  | tail _ hstep ih => exact ⟨(hstep.crash hg' ih.2).1, (hstep.crash hg' ih.2).2.1⟩

theorem crashed_steps {ar : Arith} {core : EmulCore} (hg : core.graph.Wf) {c c' : Config}
    (hsteps : Relation.ReflTransGen (Step ar core (Admits core)) c c')
    (h : ∀ s, c.phase.loop = some s → CrashInv core s c.log) {s : Loop} {app : Node}
    (hs : c.phase.loop = some s) (hdead : ¬ s.Alive app) :
    (∀ s', c'.phase.loop = some s' → CrashInv core s' c'.log ∧ ¬ s'.Alive app) ∧
      ∃ es, c'.log = c.log ++ es ∧ ∀ e ∈ es, ¬ e.concerns app := by
  induction hsteps with
  | refl =>
    refine ⟨fun s' hs' => ⟨h s' hs', ?_⟩, [], by simp, by simp⟩
    rw [hs] at hs'
    exact Option.some.inj hs' ▸ hdead
  | tail _ hstep ih =>
    obtain ⟨hinv, es, hlog, hes⟩ := ih
    obtain ⟨-, hinv', s₁, es', hs₁, hlog', hes'⟩ := hstep.crash hg fun s' hs' => (hinv s' hs').1
    have hquiet : ∀ e ∈ es', ¬ e.concerns app := fun e he => hes' e he app (hinv s₁ hs₁).2
    refine ⟨fun s' hs' => ⟨hinv' s' hs', ?_⟩, es ++ es', by rw [hlog', hlog, List.append_assoc], ?_⟩
    · obtain ⟨e, he, hr⟩ := ((hinv s₁ hs₁).1.reported app).mp (hinv s₁ hs₁).2
      exact ((hinv' s' hs').reported app).mpr ⟨e, by rw [hlog']; exact List.mem_append_left _ he, hr⟩
    · intro e he
      exact (List.mem_append.mp he).elim (hes e) (hquiet e)

/-- A log in which nothing follows a report of an app has one report of it at most. -/
theorem countP_reports_le {log : List Effect} (h : log.Pairwise After) (app : Node) :
    log.countP (fun e => decide (e.reports app)) ≤ 1 := by
  induction log with
  | nil => simp
  | cons e log ih =>
    obtain ⟨hfirst, hrest⟩ := List.pairwise_cons.mp h
    by_cases he : e.reports app
    · have hzero : log.countP (fun e => decide (e.reports app)) = 0 := by
        rw [List.countP_eq_zero]
        intro e' he' hr
        exact hfirst e' he' app he (of_decide_eq_true hr).concerns
      rw [List.countP_cons_of_pos (by simpa using he), hzero]
    · rw [List.countP_cons_of_neg (by simpa using he)]
      exact ih hrest

/-- In a run of admitted messages an app that has crashed stays crashed, nothing more goes to its
reporter, and one `CleanStop` at most is sent for it. -/
theorem crash_final {ar : Arith} {g : Network Node} (hb : g.Built) {core : EmulCore} {c : Config}
    (h : Reach ar g (Admits core) core c) :
    (∀ app, c.log.countP (fun e => decide (e.reports app)) ≤ 1) ∧ c.log.Pairwise After ∧
    ∀ s app, c.phase.loop = some s → s.statusOf app = some .crashed →
      ∀ c', Relation.ReflTransGen (Step ar core (Admits core)) c c' →
        (∀ s', c'.phase.loop = some s' → s'.statusOf app = some .crashed) ∧
        ∃ es, c'.log = c.log ++ es ∧ ∀ e ∈ es, ¬ e.concerns app := by
  obtain ⟨hg, hafter, hinv⟩ := h.crashInv hb.wf
  refine ⟨countP_reports_le hafter, hafter, fun s app hs hcrashed c' hsteps => ?_⟩
  have hdead : ¬ s.Alive app := fun halive => halive hcrashed
  obtain ⟨hstay, hquiet⟩ := crashed_steps hg hsteps hinv hs hdead
  exact ⟨fun s' hs' => not_not.mp (hstay s' hs').2, hquiet⟩

theorem demo_crash : Returns (demoRun (demoNet 0) (demoHost 0) [demoEvent 0 .crash]).result fun p =>
    p.2.statusOf (demoApp 0 (demoHost 0)) = some .crashed ∧
    (demoRun (demoNet 0) (demoHost 0) [demoEvent 0 .crash]).log.countP
      (fun e => decide (e.reports (demoApp 0 (demoHost 0)))) ≤ 1 ∧
    ∀ c', Relation.ReflTransGen (Step .wrapping p.1 (Admits p.1))
      ⟨.running p.2, (demoRun (demoNet 0) (demoHost 0) [demoEvent 0 .crash]).log⟩ c' →
        ∀ s', c'.phase.loop = some s' → s'.statusOf (demoApp 0 (demoHost 0)) = some .crashed := by
  obtain ⟨⟨core, s⟩, hrun, hcrashed⟩ :
      Returns (demoRun (demoNet 0) (demoHost 0) [demoEvent 0 .crash]).result fun p =>
        p.2.statusOf (demoApp 0 (demoHost 0)) = some .crashed := by decide +kernel
  have hreach : Reach .wrapping (demoNet 0) (Admits core) core
      ⟨.running s, (demoRun (demoNet 0) (demoHost 0) [demoEvent 0 .crash]).log⟩ := by
    refine demoRun_reach (fun core' apps happs => ?_) hrun
    refine ⟨fun p hp _ => ⟨?_, by simp [start]⟩, fun _ _ => trivial⟩
    rw [((initEmulation_apps happs).1 p hp).1]
    decide
  obtain ⟨hone, -, hstay⟩ := crash_final (demoNet_built 0 (Or.inl rfl)) hreach
  exact ⟨(core, s), hrun, hcrashed, hone _, fun c' hsteps => (hstay s _ rfl hcrashed c' hsteps).1⟩

/-- A second crash of an app is reported again, an app that quits after its crash has only
stopped, and a crashed app with a flow in use is still sent the bandwidth of the flow. -/
theorem crash_reported_twice : ((demoNet 0).Built ∧ (demoNet 0).pathStrategy = .shortestPath) ∧
    (∃ core c, Reach .wrapping (demoNet 0) (fun _ _ => True) core c ∧
      c.log.countP (fun e => decide (e.reports (demoApp 0 (demoHost 0)))) = 2) ∧
    (∃ core s log s' log', Reach .wrapping (demoNet 0) (fun _ _ => True) core ⟨.running s, log⟩ ∧
      s.statusOf (demoApp 0 (demoHost 0)) = some .crashed ∧
      Step .wrapping core (fun _ _ => True) ⟨.running s, log⟩ ⟨.running s', log'⟩ ∧
      s'.statusOf (demoApp 0 (demoHost 0)) = some .stopped) ∧
    ∃ core c, Reach .wrapping (demoNet 0) (fun _ _ => True) core c ∧ ¬ c.log.Pairwise After := by
  refine ⟨⟨demoNet_built 0 (Or.inl rfl), rfl⟩, ?_, ?_, ?_⟩
  · obtain ⟨⟨core, s⟩, hrun, -⟩ : Returns (demoRun (demoNet 0) (demoHost 0)
        [demoEvent 0 .crash, demoEvent 0 .crash]).result fun _ => True := by decide +kernel
    refine ⟨core, _, demoRun_reach (fun _ _ _ => along_true _ _ _ _ _) hrun, ?_⟩
    show (demoRun (demoNet 0) (demoHost 0) [demoEvent 0 .crash, demoEvent 0 .crash]).log.countP _ = 2
    decide +kernel
  · obtain ⟨⟨core, s⟩, hrun, hcrashed, r, hr, hstopped⟩ :
        Returns (demoRun (demoNet 0) (demoHost 0) [demoEvent 0 .crash]).result fun p =>
          p.2.statusOf (demoApp 0 (demoHost 0)) = some .crashed ∧
          Returns (flowRound .inOrder .wrapping p.1 p.2 (demoEvent 0 .quit)).result fun r =>
            (r.getLeft?.bind fun s' => s'.statusOf (demoApp 0 (demoHost 0))) = some .stopped := by
      decide +kernel
    cases r with
    | inr s' => cases hstopped
    | inl s' =>
      exact ⟨core, s, _, s', _, demoRun_reach (fun _ _ _ => along_true _ _ _ _ _) hrun, hcrashed,
        .next .inOrder trivial hr, hstopped⟩
  · obtain ⟨⟨core, s⟩, hrun, -⟩ : Returns (demoRun (demoNet 0) (demoHost 0)
        [.flowUpdate ⟨.v4 100, .v4 101, some 60⟩, demoEvent 0 .crash]).result fun _ => True := by
      decide +kernel
    refine ⟨core, _, demoRun_reach (fun _ _ _ => along_true _ _ _ _ _) hrun, fun hafter => ?_⟩
    have hafter' : (demoRun (demoNet 0) (demoHost 0)
        [.flowUpdate ⟨.v4 100, .v4 101, some 60⟩, demoEvent 0 .crash]).log.Pairwise After := hafter
    -- The sixth thing done is the `CleanStop`, and the seventh the bandwidth of the flow.
    exact List.pairwise_iff_getElem.mp hafter' 5 6 (by decide +kernel) (by decide +kernel) (by decide)
      (demoApp 0 (demoHost 0)) (by decide +kernel) (by decide +kernel)

end Emulcore

end Kollaps
