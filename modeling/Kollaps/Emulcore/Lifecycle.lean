import Kollaps.Emulcore.AtCrash

/-!
# The life of a core

It starts a container and a reporter for each app of its host, and any of these steps may fail.
When the core is dropped, the containers of the apps that it knows and that have not crashed are
stopped.
-/

namespace Kollaps

open Run Act

namespace Emulcore

/-! ## The start -/

/-- Which steps succeed when a core starts on its host. -/
structure Surroundings where
  flowSocket : Bool
  launches : Node → Bool
  hasPid : Node → Bool
  tcSocket : Node → Bool
  spawns : Node → Bool
  ready : Node → Bool
  connects : Node → Bool
  syncSocket : Bool

/-- What a core does in its life, with what it does in its loop. -/
inductive LifeEffect where
  | launchContainer (app : Node)
  | spawnReporter (app : Node)
  | register (emulId : Uuid)
  | unregister (emulId : Uuid)
  | loop (effect : Effect)

def managed (node : Node) : Option String :=
  match node with
  | .app _ app =>
    match app.kind with
    | .bareMetal => none
    | .container config => config.image.map fun _ => config.name
  | .bridge _ => none

def require (condition : Bool) (message : String) : Run Unit :=
  if condition then pure () else .error (.err message)

/-- `launch_reporter_for_app`, and the wait for its reporter. -/
def launchReporter (env : Surroundings) (node : Node) : Act LifeEffect PUnit := do
  let app ← node.asApp
  launchReporterForApp app
  let _ ← app.ipAddr
  require (env.launches node) "cannot execute command"
  emit (.launchContainer node)
  require (env.hasPid node) "cannot parse the pid of the container"
  require (env.tcSocket node) "The socket already exists"
  require (env.spawns node) "cannot spawn the reporter"
  emit (.spawnReporter node)
  require (env.ready node) "The reporter didn't send ready in the defined timeout"

def launchAll (env : Surroundings) (it : Iter) (core : EmulCore) : Act LifeEffect (List Node) :=
  (core.graph.vertices it).foldlM (fun launched node => do
    if ← core.hosts node then
      launchReporter env node
      pure (launched ++ [node])
    else pure launched) []

structure Begun where
  log : List LifeEffect
  apps : AppMap
  outcome : Run PUnit

/-- The second loop. It keeps the apps connected so far when it fails. -/
def connectAll (env : Surroundings) : List Node → AppMap → Begun
  | [], apps => ⟨[], apps, .ok ⟨⟩⟩
  | node :: nodes, apps =>
    match node.asApp >>= Application.ipAddr with
    | .error e => ⟨[], apps, .error e⟩
    | .ok ip =>
      if env.connects node then
        let rest := connectAll env nodes (apps.put node .notInit)
        { rest with log := .loop (.toReporter node (.tcInit (TCConf.default ip))) :: rest.log }
      else ⟨[], apps, .error (.err "cannot connect to the reporter")⟩

/-- The whole of `init_emulation`. -/
def initEmulationOn (env : Surroundings) (it : Iter) (core : EmulCore) : Begun :=
  if env.flowSocket then
    let launch := launchAll env it core
    match launch.result with
    | .error e => ⟨launch.log, KeySet.empty, .error e⟩
    | .ok launched =>
      let connected := connectAll env (it.order launched) KeySet.empty
      match connected.outcome with
      | .error e => ⟨launch.log ++ connected.log, connected.apps, .error e⟩
      | .ok _ => ⟨launch.log ++ connected.log ++ [.register core.emulId], connected.apps,
          require env.syncSocket "cannot bind the synchronization"⟩
  else ⟨[], KeySet.empty, .error (.err "cannot bind the flow socket")⟩

/-! ## The end -/

/-- What `drop` does for one app. Its failures are ignored. -/
def dropApp (p : Node × AppStatus) : List LifeEffect :=
  if p.2 = .crashed then []
  else .loop (.toReporter p.1 .tcTeardown) :: ((stopAppIfNecessary p.1).log.map .loop)

def dropCore (it : Iter) (core : EmulCore) (apps : AppMap) : List LifeEffect :=
  .unregister core.emulId :: (it.order apps.elems).flatMap dropApp

/-! ## Containers -/

def launchedApps (log : List LifeEffect) : List Node := log.filterMap fun
  | .launchContainer app => some app
  | _ => none

def started (log : List LifeEffect) : List String := (launchedApps log).filterMap managed

def Effect.stop : Effect → Option String
  | .stopContainer name => some name
  | _ => none

def stops (log : List Effect) : List String := log.filterMap Effect.stop

def inLoop (log : List LifeEffect) : List Effect := log.filterMap fun
  | .loop e => some e
  | _ => none

def stopped (log : List LifeEffect) : List String := stops (inLoop log)

theorem launchedApps_append (a b : List LifeEffect) :
    launchedApps (a ++ b) = launchedApps a ++ launchedApps b := List.filterMap_append

theorem stops_append (a b : List Effect) : stops (a ++ b) = stops a ++ stops b := List.filterMap_append

theorem inLoop_append (a b : List LifeEffect) : inLoop (a ++ b) = inLoop a ++ inLoop b :=
  List.filterMap_append

theorem stopped_append (a b : List LifeEffect) : stopped (a ++ b) = stopped a ++ stopped b := by
  unfold stopped
  rw [inLoop_append, stops_append]

theorem stopAppIfNecessary_stops {node : Node} (h : node.isApp = true) :
    stops (stopAppIfNecessary node).log = (managed node).toList := by
  cases node with
  | bridge id => cases h
  | app id app =>
    obtain ⟨ip, host, name, kind, index⟩ := app
    cases kind with
    | bareMetal => rfl
    | container config =>
      obtain ⟨name, id, imageCommand⟩ := config
      cases imageCommand <;> rfl

theorem stopped_loop (log : List Effect) : stopped (log.map .loop) = stops log := by
  unfold stopped inLoop
  rw [List.filterMap_map]
  congr 1
  exact List.filterMap_some

theorem stopped_dropApp {p : Node × AppStatus} (h : p.1.isApp = true) :
    stopped (dropApp p) = if p.2 = .crashed then [] else (managed p.1).toList := by
  unfold dropApp
  split
  · rfl
  · rw [← stopAppIfNecessary_stops h, ← stopped_loop]
    rfl

def living (apps : AppMap) : List Node := nodesOf (apps.filter fun p => p.2 ≠ .crashed)

theorem stopped_dropCore (it : Iter) (core : EmulCore) (apps : AppMap)
    (h : ∀ n ∈ nodesOf apps, n.isApp = true) :
    (stopped (dropCore it core apps)).Perm ((living apps).filterMap managed) := by
  have hflat : ∀ ps : List (Node × AppStatus), (∀ p ∈ ps, p.1.isApp = true) →
      stopped (ps.flatMap dropApp) =
        ((ps.filter fun p => p.2 ≠ .crashed).map Prod.fst).filterMap managed := by
    intro ps hps
    induction ps with
    | nil => rfl
    | cons p ps ih =>
      rw [List.flatMap_cons, stopped_append, stopped_dropApp (hps p List.mem_cons_self),
        ih fun q hq => hps q (List.mem_cons_of_mem _ hq)]
      by_cases hp : p.2 = .crashed
      · simp [hp]
      · cases hm : managed p.1 <;> simp [hp, hm]
  show (stopped ([.unregister core.emulId] ++ (it.order apps.elems).flatMap dropApp)).Perm _
  rw [stopped_append, hflat _ fun p hp => h p.1 (List.mem_map_of_mem (it.mem_order.mp hp))]
  exact (((it.perm _).filter _).map _).filterMap _

/-! ## What a start leaves -/

theorem launchReporter_ok {env : Surroundings} {node : Node} {u : PUnit}
    (h : (launchReporter env node).result = .ok u) :
    launchedApps (launchReporter env node).log = [node] ∧ stopped (launchReporter env node).log = [] := by
  obtain ⟨app, -, h, hlog⟩ := Act.of_bind_eq_ok h
  obtain ⟨_, -, h, hlog₁⟩ := Act.of_bind_eq_ok h
  obtain ⟨_, -, h, hlog₂⟩ := Act.of_bind_eq_ok h
  obtain ⟨_, -, h, hlog₃⟩ := Act.of_bind_eq_ok h
  obtain ⟨_, -, h, hlog₄⟩ := Act.of_bind_eq_ok h
  obtain ⟨_, -, h, hlog₅⟩ := Act.of_bind_eq_ok h
  obtain ⟨_, -, h, hlog₆⟩ := Act.of_bind_eq_ok h
  obtain ⟨_, -, h, hlog₇⟩ := Act.of_bind_eq_ok h
  obtain ⟨_, -, h, hlog₈⟩ := Act.of_bind_eq_ok h
  rw [launchReporter, hlog, hlog₁, hlog₂, hlog₃, hlog₄, hlog₅, hlog₆, hlog₇, hlog₈]
  exact ⟨rfl, rfl⟩

theorem launchReporter_log (env : Surroundings) (node : Node) :
    ∀ e ∈ (launchReporter env node).log, ∀ effect, e ≠ .loop effect := by
  have h : Does (launchReporter env node) (fun e => ∀ effect, e ≠ .loop effect) fun _ => True := by
    unfold launchReporter
    refine Does.bind_lift fun _ _ => Does.bind_lift fun _ _ => Does.bind_lift fun _ _ => ?_
    refine Does.bind_lift fun _ _ => ?_
    refine (Does.emit (Q := fun _ => True) (by simp) trivial).bind fun _ _ => ?_
    refine Does.bind_lift fun _ _ => Does.bind_lift fun _ _ => Does.bind_lift fun _ _ => ?_
    exact (Does.emit (Q := fun _ => True) (by simp) trivial).bind fun _ _ => Does.lift fun _ _ => trivial
  exact h.log

theorem inLoop_eq_nil {log : List LifeEffect} (h : ∀ e ∈ log, ∀ effect, e ≠ .loop effect) :
    inLoop log = [] := by
  refine List.filterMap_eq_nil_iff.mpr fun e he => ?_
  cases e with
  | loop effect => exact absurd rfl (h _ he effect)
  | _ => rfl

theorem launchAll_inLoop (env : Surroundings) (it : Iter) (core : EmulCore) :
    inLoop (launchAll env it core).log = [] := by
  refine inLoop_eq_nil ?_
  refine (Does.foldlM (Q := fun _ => True) (fun launched node _ _ => ?_) trivial).log
  refine Does.bind_lift fun here _ => ?_
  split
  · refine Does.bind (Q := fun _ => True) ⟨launchReporter_log env node, fun _ _ => trivial⟩ fun _ _ => ?_
    exact Does.pure trivial
  · exact Does.pure trivial

theorem launchAll_ok {env : Surroundings} {it : Iter} {core : EmulCore} {launched : List Node}
    (h : (launchAll env it core).result = .ok launched) :
    launchedApps (launchAll env it core).log = launched ∧ launched.Nodup ∧
      ∀ n, n ∈ launched ↔ Hosted core n := by
  obtain ⟨hlog, hsub, hmem⟩ := Act.foldlM_ok_log (fun pre log launched => launchedApps log = launched ∧
    launched.Sublist pre ∧ ∀ n, n ∈ launched ↔ n ∈ pre ∧ core.hosts n = .ok true)
    ⟨rfl, List.Sublist.refl _, by simp [launchedApps]⟩ (by
      rintro pre node post log launched launched' - ⟨hlog, hsub, hmem⟩ hstep
      obtain ⟨here, hhere, hstep, hlog₁⟩ := Act.of_bind_eq_ok hstep
      rw [launchedApps_append, hlog, hlog₁]
      have hhere' : core.hosts node = .ok here := hhere
      split at hstep <;> rename_i hme
      · obtain ⟨_, hr, hstep, hlog₂⟩ := Act.of_bind_eq_ok hstep
        cases hstep
        rw [if_pos hme, hlog₂, log_lift, List.nil_append, launchedApps_append, (launchReporter_ok hr).1]
        refine ⟨rfl, hsub.append_right _, fun n => ?_⟩
        rw [List.mem_append, List.mem_append, hmem, List.mem_singleton, or_and_right]
        refine or_congr_right ⟨?_, And.left⟩
        rintro rfl
        exact ⟨rfl, hme ▸ hhere'⟩
      · cases hstep
        rw [if_neg hme]
        refine ⟨List.append_nil _, hsub.trans (List.sublist_append_left _ _), fun n => ?_⟩
        rw [hmem, List.mem_append, List.mem_singleton, or_and_right]
        refine (or_iff_left ?_).symm
        rintro ⟨rfl, hn⟩
        exact hme (Except.ok.inj (hhere'.symm.trans hn))) h
  have hnodup : (core.graph.vertices it).Nodup := by
    have hkeys := core.graph.mapper.nodup
    rw [show core.graph.mapper.elems.map (fun p => Vertex.id p.1) =
      (core.graph.mapper.elems.map Prod.fst).map Vertex.id by rw [List.map_map]; rfl] at hkeys
    exact ((it.perm _).map _).nodup_iff.mpr (List.Nodup.of_map _ hkeys)
  refine ⟨hlog, hnodup.sublist hsub, fun n => (hmem n).trans (and_congr_left fun _ => ?_)⟩
  rw [Network.vertices, ((it.perm _).map _).mem_iff]

theorem connectAll_spec (env : Surroundings) (nodes : List Node) (apps : AppMap) :
    let b := connectAll env nodes apps
    launchedApps b.log = [] ∧ stopped b.log = [] ∧
      (∀ p ∈ b.apps.elems, (p.2 = .notInit ∧ p.1 ∈ nodes) ∨ ∃ q ∈ apps.elems, q.1 = p.1 ∧
        (p.2 = q.2 ∨ p.2 = .notInit)) ∧
      (b.outcome = .ok ⟨⟩ → ∀ n, apps.contains (Vertex.id n) = true ∨ n ∈ nodes →
        b.apps.contains (Vertex.id n) = true) := by
  induction nodes generalizing apps with
  | nil =>
    refine ⟨rfl, rfl, fun p hp => Or.inr ⟨p, hp, rfl, Or.inl rfl⟩, fun _ n hn => ?_⟩
    exact hn.resolve_right (by simp)
  | cons node nodes ih =>
    have hstay : ∀ p ∈ apps.elems, (p.2 = .notInit ∧ p.1 ∈ node :: nodes) ∨
        ∃ q ∈ apps.elems, q.1 = p.1 ∧ (p.2 = q.2 ∨ p.2 = .notInit) :=
          fun p hp => Or.inr ⟨p, hp, rfl, Or.inl rfl⟩
    unfold connectAll
    cases node.asApp >>= Application.ipAddr with
    | error e => exact ⟨rfl, rfl, hstay, fun h => by cases h⟩
    | ok ip =>
      dsimp only
      split
      · obtain ⟨hlaunched, hstopped, happs, hall⟩ := ih (apps.put node .notInit)
        refine ⟨hlaunched, hstopped, fun p hp => ?_, fun h n hn => hall h n ?_⟩
        · rcases happs p hp with ⟨hst, hin⟩ | ⟨q, hq, hqp, hst⟩
          · exact Or.inl ⟨hst, List.mem_cons_of_mem _ hin⟩
          · rcases mem_put hq with ⟨-, hqst, hnode | ⟨r, hr, hrq⟩⟩ | hq
            · exact Or.inl ⟨hst.elim (·.trans hqst) id, hqp ▸ hnode ▸ List.mem_cons_self⟩
            · exact Or.inr ⟨r, hr, hrq.trans hqp, Or.inr (hst.elim (·.trans hqst) id)⟩
            · exact Or.inr ⟨q, hq, hqp, hst⟩
        · rcases hn with hn | hn
          · exact Or.inl (contains_put (Or.inl hn))
          · rcases List.mem_cons.mp hn with rfl | hn
            · exact Or.inl (contains_put (Or.inr rfl))
            · exact Or.inr hn
      · exact ⟨rfl, rfl, hstay, fun h => by cases h⟩

/-- What a start leaves, whether it fails or not. -/
structure Begins (core : EmulCore) (b : Begun) : Prop where
  apps : ∀ p ∈ b.apps.elems, p.2 = .notInit ∧ Hosted core p.1
  stopped : stopped b.log = []
  launched : b.apps = KeySet.empty ∨
    ((launchedApps b.log).Nodup ∧ ∀ n, n ∈ launchedApps b.log ↔ Hosted core n)
  complete : b.outcome = .ok ⟨⟩ → ((launchedApps b.log).Nodup ∧
    ∀ n, n ∈ launchedApps b.log ↔ Hosted core n) ∧ ∀ n, n ∈ nodesOf b.apps ↔ Hosted core n

theorem initEmulationOn_begins (env : Surroundings) (it : Iter) (core : EmulCore) :
    Begins core (initEmulationOn env it core) := by
  unfold initEmulationOn
  split
  · have hstop : stopped (launchAll env it core).log = [] :=
      congrArg stops (launchAll_inLoop env it core)
    dsimp only
    cases hlaunch : (launchAll env it core).result with
    | error e => exact ⟨by simp, hstop, Or.inl rfl, fun h => by cases h⟩
    | ok launched =>
      obtain ⟨hlaunched, hnodup, hmem⟩ := launchAll_ok hlaunch
      obtain ⟨hnone, hquiet, happs, hall⟩ := connectAll_spec env (it.order launched) KeySet.empty
      have hbegun : ∀ p ∈ (connectAll env (it.order launched) KeySet.empty).apps.elems,
          p.2 = .notInit ∧ Hosted core p.1 := by
        intro p hp
        rcases happs p hp with ⟨hst, hin⟩ | ⟨q, hq, -⟩
        · exact ⟨hst, (hmem p.1).mp (it.mem_order.mp hin)⟩
        · cases hq
      have happs : launchedApps ((launchAll env it core).log ++
          (connectAll env (it.order launched) KeySet.empty).log) = launched := by
        rw [launchedApps_append, hlaunched, hnone, List.append_nil]
      have hstopped : Emulcore.stopped ((launchAll env it core).log ++
          (connectAll env (it.order launched) KeySet.empty).log) = [] := by
        rw [stopped_append, hstop, hquiet]
        rfl
      dsimp only
      cases hconnect : (connectAll env (it.order launched) KeySet.empty).outcome with
      | error e =>
        refine ⟨hbegun, hstopped, Or.inr ?_, fun h => by cases h⟩
        dsimp only
        rw [happs]
        exact ⟨hnodup, hmem⟩
      | ok u =>
        have happs' : launchedApps ((launchAll env it core).log ++
            (connectAll env (it.order launched) KeySet.empty).log ++ [.register core.emulId]) = launched := by
          rw [launchedApps_append, happs]
          exact List.append_nil _
        refine ⟨hbegun, ?_, Or.inr ?_, fun _ => ⟨?_, fun n => ⟨fun hn => ?_, fun hn => ?_⟩⟩⟩
        · dsimp only
          rw [stopped_append, hstopped]
          rfl
        · dsimp only
          rw [happs']
          exact ⟨hnodup, hmem⟩
        · dsimp only
          rw [happs']
          exact ⟨hnodup, hmem⟩
        · obtain ⟨p, hp, rfl⟩ := List.mem_map.mp hn
          exact (hbegun p hp).2
        · have hin := hall hconnect n (Or.inr (it.mem_order.mpr ((hmem n).mpr hn)))
          obtain ⟨p, hp, hk⟩ := List.mem_map.mp (KeySet.contains_iff.mp hin)
          exact List.mem_map.mpr ⟨p, hp, (hbegun p hp).2.isNode.eq_of_vertex hn.isNode hk⟩
  · exact ⟨by simp, rfl, Or.inl rfl, fun h => by cases h⟩

/-! ## A start that succeeds -/

/-- Launching while looking for the apps of the host launches what looking first would. -/
theorem launchAll_agrees {env : Surroundings} {it : Iter} {core : EmulCore} {launched : List Node}
    (h : (launchAll env it core).result = .ok launched) :
    (core.graph.vertices it).filterM (m := Run) core.hosts = .ok launched ∧
      launched.forM (m := Run) (fun node => do launchReporterForApp (← node.asApp)) = .ok ⟨⟩ := by
  let here : Node → Bool := fun node => (core.hosts node).toOption == some true
  obtain ⟨hhere, hfilter, happs⟩ := Act.foldlM_ok_inv (fun pre launched =>
    (∀ node ∈ pre, core.hosts node = .ok (here node)) ∧ launched = pre.filter here ∧
      ∀ node ∈ launched, (node.asApp >>= launchReporterForApp) = .ok ⟨⟩)
    ⟨by simp, rfl, by simp⟩ (by
      rintro pre node post launched launched' - ⟨hhere, rfl, happs⟩ hstep
      obtain ⟨b, hb, hstep, -⟩ := Act.of_bind_eq_ok hstep
      have hb' : core.hosts node = .ok b := hb
      have hnode : here node = b := by
        show ((core.hosts node).toOption == some true) = b
        rw [hb']
        cases b <;> rfl
      have hall : ∀ node' ∈ pre ++ [node], core.hosts node' = .ok (here node') := by
        intro node' hin
        rcases List.mem_append.mp hin with hin | hin
        · exact hhere node' hin
        · obtain rfl := List.mem_singleton.mp hin
          rw [hnode, hb']
      split at hstep <;> rename_i hme
      · obtain ⟨_, hlaunch, hstep, -⟩ := Act.of_bind_eq_ok hstep
        cases hstep
        refine ⟨hall, by simp [hnode, hme], fun node' hin => ?_⟩
        rcases List.mem_append.mp hin with hin | hin
        · exact happs node' hin
        · obtain rfl := List.mem_singleton.mp hin
          obtain ⟨app, happ, hlaunch, -⟩ := Act.of_bind_eq_ok hlaunch
          obtain ⟨_, hkind, -, -⟩ := Act.of_bind_eq_ok hlaunch
          exact (congrArg (· >>= launchReporterForApp) happ).trans hkind
      · cases hstep
        exact ⟨hall, by simp [hnode, hme], happs⟩) h
  subst hfilter
  exact ⟨filterM_ok hhere, forM_ok happs⟩

theorem connectAll_agrees {env : Surroundings} {nodes : List Node} {apps : AppMap}
    (h : (connectAll env nodes apps).outcome = .ok ⟨⟩) :
    nodes.foldlM (fun (myApps : AppMap) node => do
      let app ← node.asApp
      emit (.toReporter node (.tcInit (TCConf.default (← app.ipAddr))))
      pure (myApps.put node .notInit)) apps =
    (⟨inLoop (connectAll env nodes apps).log, .ok (connectAll env nodes apps).apps⟩ : Act Effect AppMap) := by
  induction nodes generalizing apps with
  | nil => rfl
  | cons node nodes ih =>
    unfold connectAll at h ⊢
    cases hip : node.asApp >>= Application.ipAddr with
    | error e => simp [hip] at h
    | ok ip =>
      rw [hip] at h
      dsimp only at h ⊢
      split at h <;> rename_i hconnects
      · obtain ⟨app, happ, hip⟩ := Run.of_bind_eq_ok hip
        have hstep : (do
            let app ← node.asApp
            emit (.toReporter node (.tcInit (TCConf.default (← app.ipAddr))))
            pure (apps.put node .notInit) : Act Effect AppMap) =
              ⟨[.toReporter node (.tcInit (TCConf.default ip))], .ok (apps.put node .notInit)⟩ := by
          rw [happ, Act.bind_of_ok (Act.result_lift _), hip, Act.bind_of_ok (Act.result_lift _)]
          rfl
        rw [if_pos hconnects, List.foldlM_cons, hstep, Act.bind_of_ok rfl, ih h]
        rfl
      · cases h

theorem initEmulationOn_agrees {env : Surroundings} {it : Iter} {core : EmulCore}
    (h : (initEmulationOn env it core).outcome = .ok ⟨⟩) :
    initEmulation it core =
      ⟨inLoop (initEmulationOn env it core).log, .ok (initEmulationOn env it core).apps⟩ := by
  unfold initEmulationOn at h ⊢
  split at h <;> rename_i hflow
  · rw [if_pos hflow]
    dsimp only at h ⊢
    cases hlaunch : (launchAll env it core).result with
    | error e =>
      rw [hlaunch] at h
      cases h
    | ok launched =>
      rw [hlaunch] at h
      dsimp only at h ⊢
      obtain ⟨hmine, hready⟩ := launchAll_agrees hlaunch
      cases hconnect : (connectAll env (it.order launched) KeySet.empty).outcome with
      | error e =>
        rw [hconnect] at h
        cases h
      | ok u =>
        dsimp only
        rw [inLoop_append, inLoop_append, launchAll_inLoop, List.nil_append, initEmulation, hmine,
          Act.bind_of_ok (Act.result_lift _), hready, Act.bind_of_ok (Act.result_lift _),
          connectAll_agrees hconnect]
        show (⟨inLoop _, _⟩ : Act Effect AppMap) = ⟨inLoop _ ++ [], _⟩
        rw [List.append_nil]
  · cases h

/-! ## Containers that stop in the loop -/

theorem stops_atCrash (core : EmulCore) : AtCrash core Effect.stop managed := by
  refine atCrash_of (fun _ _ => rfl) (fun _ _ _ => rfl) fun node index hnode _ => ?_
  rw [List.filterMap_append]
  exact (List.append_nil _).trans (stopAppIfNecessary_stops hnode.2)

/-! ## Every container is accounted for -/

theorem nodesOf_perm (apps : AppMap) : (nodesOf apps).Perm (crashed apps ++ living apps) := by
  unfold crashed living nodesOf
  rw [KeySet.elems_filter, KeySet.elems_filter, ← List.map_append]
  refine List.Perm.map _ ?_
  have := (List.filter_append_perm (fun p : Node × AppStatus => decide (p.2 = .crashed)) apps.elems).symm
  refine this.trans (List.Perm.append_left _ (List.Perm.of_eq ?_))
  exact List.filter_congr fun p _ => by simp

theorem living_of_notInit {apps : AppMap} (h : ∀ p ∈ apps.elems, p.2 = .notInit) :
    living apps = nodesOf apps := by
  unfold living nodesOf
  rw [KeySet.elems_filter, List.filter_eq_self.mpr]
  intro p hp
  simp [h p hp]

/-- A start that fails leaves the containers that it had not connected. -/
theorem Begins.leaks {core : EmulCore} {b : Begun} (h : Begins core b) (it : Iter) :
    (started b.log).Perm (Emulcore.stopped (b.log ++ dropCore it core b.apps) ++
      ((launchedApps b.log).filter (· ∉ nodesOf b.apps)).filterMap managed) := by
  have hdrop := stopped_dropCore it core b.apps fun n hn => by
    obtain ⟨p, hp, rfl⟩ := List.mem_map.mp hn
    exact (h.apps p hp).2.isNode.2
  rw [living_of_notInit fun p hp => (h.apps p hp).1] at hdrop
  rw [stopped_append, h.stopped, List.nil_append]
  refine List.Perm.trans ?_ (hdrop.symm.append_right _)
  unfold started
  rw [← List.filterMap_append]
  refine List.Perm.filterMap _ ?_
  rcases h.launched with hempty | ⟨hnodup, hmem⟩
  · rw [hempty]
    simp [nodesOf]
  · have hsplit := (List.filter_append_perm (fun n => decide (n ∈ nodesOf b.apps)) (launchedApps b.log)).symm
    refine hsplit.trans (List.Perm.append ?_ (List.Perm.of_eq (List.filter_congr fun n _ => by simp)))
    refine (List.perm_ext_iff_of_nodup (hnodup.filter _) (nodesOf_nodup _)).mpr fun n => ?_
    rw [List.mem_filter, decide_eq_true_eq, hmem]
    refine and_iff_right_of_imp fun hn => ?_
    obtain ⟨p, hp, rfl⟩ := List.mem_map.mp hn
    exact (h.apps p hp).2

/-- Every container that a core starts is stopped, by a crash in its loop or when the core is dropped,
and no other is. Each is stopped once if no event follows a crash. A start that fails leaves the
containers of the apps that it had not connected. -/
theorem containers_accounted {g : Network Node} {core : EmulCore} {it : Iter} {uuid : Uuid}
    {myself clusterLeader : ClusterNodeInfo} (hnew : new it uuid g myself clusterLeader = .ok core)
    (env : Surroundings) (it' : Iter) :
    let b := initEmulationOn env it core
    (b.outcome ≠ .ok ⟨⟩ → (started b.log).Perm (stopped (b.log ++ dropCore it' core b.apps) ++
      ((launchedApps b.log).filter (· ∉ nodesOf b.apps)).filterMap managed)) ∧
    (b.outcome = .ok ⟨⟩ → Init g core ⟨.running (start core b.apps), inLoop b.log⟩ ∧
      ∀ ar ok messages c, Course ar g core ok messages c → ∀ s, c.phase.loop = some s →
        (∀ name, name ∈ started b.log ↔ name ∈ stops c.log ++ stopped (dropCore it' core s.myApps)) ∧
        (FinalCrash messages →
          (started b.log).Perm (stops c.log ++ stopped (dropCore it' core s.myApps)))) := by
  intro b
  have hbegins : Begins core b := initEmulationOn_begins env it core
  refine ⟨fun _ => hbegins.leaks it', fun hok => ⟨?_, fun ar ok messages c hcourse s hs => ?_⟩⟩
  · have hagrees := initEmulationOn_agrees hok
    have hinit := Init.mk (g := g) it hnew (congrArg Act.result hagrees)
    rwa [hagrees] at hinit
  · have hstatus := hcourse.statusInv hs
    have hstop := hcourse.pickInv (stops_atCrash core) hs
    obtain ⟨⟨hnodup, hmem⟩, -⟩ := hbegins.complete hok
    have hdrop := stopped_dropCore it' core s.myApps fun n hn =>
      ((hstatus.nodes n).mp hn).isNode.2
    have hstarted : (started b.log).Perm ((crashed s.myApps).filterMap managed ++
        (living s.myApps).filterMap managed) := by
      rw [← List.filterMap_append]
      refine List.Perm.filterMap _ (List.Perm.trans ?_ (nodesOf_perm s.myApps))
      refine (List.perm_ext_iff_of_nodup hnodup (nodesOf_nodup _)).mpr fun n => ?_
      rw [hmem, hstatus.nodes]
    refine ⟨fun name => ?_, fun hfinal => ?_⟩
    · rw [hstarted.mem_iff, List.mem_append, List.mem_append, hdrop.mem_iff]
      refine ⟨fun h => h.imp_left fun hname => ?_, fun h => ?_⟩
      · obtain ⟨n, hn, hmanaged⟩ := List.mem_filterMap.mp hname
        exact hstop.crashed n ((nodesOf_perm _).mem_iff.mpr (List.mem_append_left _ hn))
          (crash_of_status ((mem_crashed hstatus).mp hn).2) name hmanaged
      · refine h.elim (fun hname => ?_) Or.inr
        obtain ⟨n, hn, -, hmanaged⟩ := hstop.known name hname
        exact (List.mem_append.mp ((nodesOf_perm _).mem_iff.mp hn)).imp
          (fun hn => List.mem_filterMap.mpr ⟨n, hn, hmanaged⟩)
          fun hn => List.mem_filterMap.mpr ⟨n, hn, hmanaged⟩
    · exact hstarted.trans ((hstop.once hfinal).symm.append hdrop.symm)

def demoFailing : Surroundings where
  flowSocket := true
  launches := fun _ => true
  hasPid := fun _ => true
  tcSocket := fun _ => true
  spawns := fun _ => true
  ready := fun _ => true
  connects := fun node => node.id = 1
  syncSocket := true

theorem containers_accounted_leak : Returns (new .inOrder ⟨0⟩ (demoNet 0) (demoHost 0) (demoHost 0))
    fun core => let b := initEmulationOn demoFailing .inOrder core
      nodesOf b.apps = [demoApp 1 (demoHost 0)] ∧ (started b.log).Perm
        (stopped (b.log ++ dropCore .inOrder core b.apps) ++ ["kollaps"]) := by
  obtain ⟨core, hnew, hfail, hknown, hleak⟩ : Returns (new .inOrder ⟨0⟩ (demoNet 0) (demoHost 0) (demoHost 0))
      fun core => let b := initEmulationOn demoFailing .inOrder core
        b.outcome ≠ .ok ⟨⟩ ∧ nodesOf b.apps = [demoApp 1 (demoHost 0)] ∧
          ((launchedApps b.log).filter (· ∉ nodesOf b.apps)).filterMap managed = ["kollaps"] := by
    decide +kernel
  refine ⟨core, hnew, hknown, ?_⟩
  rw [← hleak]
  exact (containers_accounted hnew demoFailing .inOrder).1 hfail

end Emulcore

end Kollaps
