import Kollaps.Pubapi.Calls

/-!
# What the handlers send

Only a topology that is placed sends a new emulation, once to each of its nodes. Only a node that
is ready as the last one has the emulation started.
-/

namespace Kollaps

open Run Act

namespace Pubapi

namespace Effect

def news (id : Uuid) (n : ClusterNodeInfo) : Effect → Bool
  | .send n' (.experimentNew _ emul) => n' = n ∧ emul.uuid = id
  | _ => false

def begins (id : Uuid) : Effect → Bool
  | .send _ (.experimentReady id') => id' = id
  | _ => false

def Idle (e : Effect) : Prop := ∀ id, e.begins id = false ∧ ∀ n, e.news id n = false

theorem idle_stop (n : ClusterNodeInfo) (id : Uuid) : Idle (.send n (.experimentStop id)) :=
  fun _ => ⟨rfl, fun _ => rfl⟩

theorem idle_reply (message : Option OManagerMessage) : Idle (.reply message) := fun _ => ⟨rfl, fun _ => rfl⟩

end Effect

open Effect

namespace OManager

variable {env : Env} {m m' : OManager} {id : Uuid} {n : ClusterNodeInfo}

theorem idle_emit {message : Option OManagerMessage} :
    ∀ e ∈ (emit (.reply message) : Act Effect Unit).log, e.Idle :=
  List.forall_mem_singleton.mpr (idle_reply message)

theorem idle_stops {α : Type} (node : α → ClusterNodeInfo) (xs : List α) :
    ∀ e ∈ (xs.forM fun x => do let _ ← sendTo env (node x) (.experimentStop id)).log, e.Idle := by
  rw [forM_sendTo]
  intro e he
  obtain ⟨n, -, rfl⟩ := List.mem_map.mp he
  exact idle_stop n id

theorem abortEmulation_idle (uuid : Uuid) : ∀ e ∈ (m.abortEmulation env uuid).log, e.Idle := by
  unfold abortEmulation
  cases m.emulationsAndTheirNodes.get? uuid with
  | none => exact List.forall_mem_nil _
  | some p => exact forall_log_bind (idle_stops Prod.fst _) fun _ _ => List.forall_mem_nil _

theorem abortEmulations_idle (uuids : List Uuid) : ∀ e ∈ (m.abortEmulations env uuids).log, e.Idle :=
  forall_log_foldlM (fun _ uuid => abortEmulation_idle uuid) m

/-! ## A new emulation -/

theorem sendAll_log (env : Env) (m : OManager) (emul : Emulation) (nodes sent : List ClusterNodeInfo) :
    ∃ tail, (sendAll env m emul sent nodes).log =
      ((nodes.takeWhile env.reaches).map fun n => .send n (.experimentNew m.myInfoOmanager emul)) ++ tail ∧
      ∀ e ∈ tail, e.Idle := by
  induction nodes generalizing sent with
  | nil => exact ⟨[], rfl, (List.forall_mem_nil _)⟩
  | cons n rest ih =>
    unfold sendAll
    rw [sendTo_eq, bind_of_ok rfl]
    cases hr : env.reaches n with
    | true =>
      obtain ⟨tail, hlog, hidle⟩ := ih (sent ++ [n])
      refine ⟨tail, ?_, hidle⟩
      simp [hr, hlog]
    | false =>
      simp only [List.takeWhile_cons, hr, Bool.false_eq_true, if_false, List.map_nil, List.nil_append]
      refine ⟨_, rfl, ?_⟩
      split
      · exact forall_log_bind (idle_stops id sent) fun _ _ => List.forall_mem_nil _
      · exact List.forall_mem_nil _

theorem countP_idle {p : Effect → Bool} {log : List Effect} (h : ∀ e ∈ log, e.Idle)
    (hp : ∀ e : Effect, e.Idle → p e = false) : log.countP p = 0 :=
  List.countP_eq_zero.mpr fun e he => by simp [hp e (h e he)]

theorem sendAll_news (env : Env) (m : OManager) (id : Uuid) (n : ClusterNodeInfo) (emul : Emulation)
    (nodes sent : List ClusterNodeInfo) :
    (sendAll env m emul sent nodes).log.countP (Effect.news id n) ≤ if emul.uuid =
      id then nodes.count n else 0 := by
  obtain ⟨tail, hlog, hidle⟩ := sendAll_log env m emul nodes sent
  rw [hlog, List.countP_append, countP_idle hidle fun e he => (he id).2 n, Nat.add_zero, List.countP_map]
  split <;> rename_i hid
  · refine ((List.takeWhile_sublist _).countP_le).trans (le_of_eq (List.countP_congr fun n' _ => ?_))
    simp [Effect.news, hid]
  · refine le_of_eq (List.countP_eq_zero.mpr fun n' _ => ?_)
    simp [Effect.news, hid]

theorem sendAll_begins (env : Env) (m : OManager) (id : Uuid) (emul : Emulation)
    (nodes sent : List ClusterNodeInfo) :
    ∀ e ∈ (sendAll env m emul sent nodes).log, e.begins id = false := by
  obtain ⟨tail, hlog, hidle⟩ := sendAll_log env m emul nodes sent
  intro e he
  rw [hlog] at he
  rcases List.mem_append.mp he with he | he
  · obtain ⟨n, -, rfl⟩ := List.mem_map.mp he
    rfl
  · exact (hidle e he id).1

/-- What a submission of the topology `uuid` does about the emulation `id`: nothing, or it sends it
once to each node, and has it in the table. -/
structure SendsOnce (uuid id : Uuid) (a : Act Effect OManager) : Prop where
  begins : ∀ e ∈ a.log, e.begins id = false
  once : ∀ n, a.log.countP (Effect.news id n) ≤ 1
  entered : ∀ n, 0 < a.log.countP (Effect.news id n) → uuid = id ∧
    Returns a.result fun m' => m'.emulationsAndTheirNodes.lookup id ≠ none

theorem SendsOnce.of_idle {uuid : Uuid} {a : Act Effect OManager} (h : ∀ e ∈ a.log, e.Idle) :
    SendsOnce uuid id a where
  begins := fun e he => (h e he id).1
  once := fun n => by
    rw [countP_idle h fun e he => (he id).2 n]
    exact Nat.zero_le _
  entered := fun n hpos => by
    rw [countP_idle h fun e he => (he id).2 n] at hpos
    exact absurd hpos (Nat.lt_irrefl 0)

theorem reject_idle (reason : TopologyRejectReason) (m : OManager) :
    ∀ e ∈ (do reject reason; pure m : Act Effect OManager).log, e.Idle :=
  forall_log_bind idle_emit fun _ _ => List.forall_mem_nil _

theorem sendNewEmulation_sends (env : Env) (m : OManager) (uuid id : Uuid) (network : Network Node)
    {nodes : List ClusterNodeInfo} (events : List EmulationEvent) (hnodup : nodes.Nodup)
    (hentered : m.emulationsAndTheirNodes.lookup uuid ≠ none) : SendsOnce uuid id (do
      if ← sendNewEmulation env m uuid network nodes events then emit (.reply (some .accepted))
      else reject .noDeploymentFound
      pure m) := by
  obtain ⟨log, hsent, -⟩ := sendAll_spec env m ⟨uuid, network, events⟩ nodes []
  have hbegins := sendAll_begins env m id ⟨uuid, network, events⟩ nodes []
  have hnews := fun n => sendAll_news env m id n ⟨uuid, network, events⟩ nodes []
  rw [hsent] at hbegins
  simp only [hsent] at hnews
  unfold sendNewEmulation
  rw [hsent, bind_of_ok rfl]
  obtain ⟨answer, hanswer, hidle⟩ : ∃ answer, (do
      if nodes.all env.reaches then emit (.reply (some .accepted))
      else reject .noDeploymentFound
      pure m : Act Effect OManager) = ⟨answer, .ok m⟩ ∧ ∀ e ∈ answer, e.Idle := by
    cases nodes.all env.reaches with
    | true => exact ⟨_, rfl, List.forall_mem_singleton.mpr (idle_reply _)⟩
    | false => exact ⟨_, rfl, List.forall_mem_singleton.mpr (idle_reply _)⟩
  simp only at hanswer ⊢
  rw [hanswer]
  have hcount : ∀ n, (log ++ answer).countP (Effect.news id n) ≤ if uuid = id then nodes.count n else 0 :=
    fun n => by
      rw [List.countP_append, countP_idle hidle fun e he => (he id).2 n, Nat.add_zero]
      exact hnews n
  refine ⟨fun e he => ?_, fun n => (hcount n).trans ?_, fun n hpos => ?_⟩
  · exact (List.mem_append.mp he).elim (hbegins e) fun he => (hidle e he id).1
  · split
    · exact List.nodup_iff_count_le_one.mp hnodup n
    · exact Nat.zero_le _
  · have hid : uuid = id := by
      by_contra hid
      have hzero := hcount n
      rw [if_neg hid] at hzero
      simp only at hpos
      omega
    exact ⟨hid, m, rfl, hid ▸ hentered⟩

theorem onPlacement_sends (env : Env) (m : OManager) (uuid id : Uuid) (events : List EmulationEvent)
    {r : Run (Orchestrator × Option (Network Node × List ClusterNodeInfo))}
    (hnodup : ∀ o network nodes, r = .ok (o, some (network, nodes)) → nodes.Nodup) :
    SendsOnce uuid id (m.onPlacement env uuid events r) := by
  unfold onPlacement
  split
  · exact .of_idle (reject_idle _ _)
  · exact sendNewEmulation_sends env _ uuid id _ events (hnodup _ _ _ rfl) (by simp [KeySet.lookup_put])
  · exact .of_idle (reject_idle _ _)
  · exact .of_idle (List.forall_mem_nil _)

theorem onNewTopology_sends (env : Env) (m : OManager) (uuid id : Uuid) (top : String) :
    SendsOnce uuid id (m.onNewTopology env uuid top) := by
  unfold onNewTopology
  split
  · refine onPlacement_sends env m uuid id _ fun o network nodes h => ?_
    obtain ⟨matrix, p, places, -, hnodup, -⟩ := Orchestrator.newEmulation_some h
    exact hnodup
  · exact .of_idle (reject_idle _ _)
  · exact .of_idle (List.forall_mem_nil _)

/-! ## The start of an emulation -/

/-- The node is the last one of the emulation that was not ready. -/
def startsLoop (m : OManager) (id : Uuid) (node : ClusterNodeInfo) : Bool :=
  match m.emulationsAndTheirNodes.lookup id with
  | some nodes => nodes.contains node && (nodes.put node true).elems.all Prod.snd
  | none => false

theorem startAll_effect (nodes : List ClusterNodeInfo) :
    ∀ e ∈ (startAll env id m nodes).log, e.Idle ∨ ∃ n, e = .send n (.experimentReady id) := by
  induction nodes with
  | nil => exact List.forall_mem_nil _
  | cons n rest ih =>
    unfold startAll
    rw [sendTo_eq]
    refine forall_log_bind (fun e he => ?_) fun reached hreached => ?_
    · split at he
      · exact Or.inr ⟨n, List.mem_singleton.mp he⟩
      · cases he
    · split
      · exact ih
      · split
        · exact List.forall_mem_nil _
        · exact fun e he => Or.inl (abortEmulations_idle [id] e he)

theorem onEmulationReady_sends (env : Env) (m : OManager) (id : Uuid) (node : ClusterNodeInfo) :
    ∀ e ∈ (m.onEmulationReady env id node).log,
      e.Idle ∨ m.startsLoop id node = true ∧ ∃ n, e = .send n (.experimentReady id) := by
  unfold onEmulationReady
  refine forall_log_bind (List.forall_mem_nil _) fun p hp => forall_log_bind (List.forall_mem_nil _)
    fun q hq => ?_
  obtain ⟨k, nodes⟩ := p
  rw [result_lift, unwrap_eq_ok, KeySet.get?_eq_lookup, Option.map_eq_some_iff] at hp
  obtain ⟨nodes', hlookup, heq⟩ := hp
  cases heq
  rw [result_lift, unwrap_eq_ok] at hq
  have hreply : ∀ m' : OManager, ∀ e ∈ (do emit (.reply none); pure m' : Act Effect OManager).log, e.Idle :=
    fun m' => forall_log_bind idle_emit fun _ _ => List.forall_mem_nil _
  simp only
  split <;> rename_i hall
  · refine forall_log_bind (fun e he => ?_) fun m' _ e he => Or.inl (hreply m' e he)
    refine (startAll_effect _ e he).imp_right fun hready => ⟨?_, hready⟩
    have hcontains : nodes.contains node = true := by
      simp only at hq
      rw [KeySet.contains, hq]
      rfl
    simp only [startsLoop, hlookup, hcontains, hall, Bool.and_self]
  · exact forall_log_bind (List.forall_mem_nil _) fun m' _ e he => Or.inl (hreply m' e he)

/-! ## Any input -/

theorem onCleanStop_idle (id : Uuid) (node : ClusterNodeInfo) (appIndex : Nat) :
    ∀ e ∈ (m.onCleanStop env id node appIndex).log, e.Idle := by
  unfold onCleanStop
  exact forall_log_bind (List.forall_mem_nil _) fun _ _ => forall_log_bind idle_emit fun _ _ =>
    List.forall_mem_nil _

theorem onChange_idle (r : Run (Orchestrator × List Uuid)) : ∀ e ∈ (m.onChange env r).log, e.Idle := by
  unfold onChange
  split
  · exact abortEmulations_idle _
  · exact List.forall_mem_nil _
  · exact List.forall_mem_nil _

theorem handle_idle {x : Input} (htopology : ∀ uuid top, x ≠ .message uuid (.newTopology top))
    (hready : ∀ uuid id node, x ≠ .message uuid (.emulationReady id node)) :
    ∀ e ∈ (m.handle env x).log, e.Idle := by
  cases x with
  | update update =>
    cases update with
    | new graph => exact onChange_idle _
    | remove node => exact onChange_idle _
  | message uuid message =>
    cases message with
    | newTopology top => exact absurd rfl (htopology uuid top)
    | emulationReady id node => exact absurd rfl (hready uuid id node)
    | abort id =>
      exact forall_log_bind (abortEmulations_idle [id]) fun _ _ =>
        forall_log_bind idle_emit fun _ _ => List.forall_mem_nil _
    | cleanStop id node appIndex => exact onCleanStop_idle id node appIndex
    | accepted | rejected reason => exact forall_log_bind idle_emit fun _ _ => List.forall_mem_nil _

theorem none_ready (nodes : List ClusterNodeInfo) (n : ClusterNodeInfo) :
    (nodes.foldl (fun acc n => acc.put n false) (KeySet.empty : HostMap Bool)).lookup n ≠ some true := by
  have hall : ∀ acc : HostMap Bool, acc.lookup n ≠ some true →
      (nodes.foldl (fun acc n => acc.put n false) acc).lookup n ≠ some true := by
    induction nodes with
    | nil => exact fun acc h => h
    | cons n' nodes ih =>
      refine fun acc h => ih _ ?_
      rw [KeySet.lookup_put]
      split
      · simp
      · exact h
  exact hall _ (by simp)

/-- What an input leaves in the table: what was there, a new emulation with no node ready, or one
node more that is ready. -/
theorem handle_table {x : Input} (h : (m.handle env x).result = .ok m') {u : Uuid} {nodes' : HostMap Bool}
    (hu : m'.emulationsAndTheirNodes.lookup u = some nodes') :
    m.emulationsAndTheirNodes.lookup u = some nodes' ∨
    (∃ top, x = .message u (.newTopology top) ∧ ∀ n, nodes'.lookup n ≠ some true) ∨
    ∃ uuid node nodes, x = .message uuid (.emulationReady u node) ∧
      m.emulationsAndTheirNodes.lookup u = some nodes ∧ nodes.lookup node ≠ none ∧ nodes' =
        nodes.put node true := by
  have hforgets : ∀ {uuids : List Uuid} {m₀ : OManager}, Aborted uuids m₀ m' →
      m₀.emulationsAndTheirNodes.lookup u = some nodes' := by
    intro uuids m₀ haborted
    rw [haborted.forgets u] at hu
    split at hu
    · cases hu
    · exact hu
  cases x with
  | update update =>
    cases update with
    | new graph =>
      obtain ⟨o, uuids, -, haborted⟩ := onChange_ok h
      have hold := hforgets haborted
      exact Or.inl hold
    | remove node =>
      obtain ⟨o, uuids, -, haborted⟩ := onChange_ok h
      have hold := hforgets haborted
      exact Or.inl hold
  | message uuid message =>
    cases message with
    | newTopology top =>
      have hspec := onNewTopology_spec h
      generalize (m.onNewTopology env uuid top).log = log at hspec
      cases hspec with
      | refused => exact Or.inl hu
      | @entered network network' events o nodes _ ok hparse hplace hok hlog =>
        simp only [KeySet.lookup_put] at hu
        split at hu <;> rename_i hid
        · cases hu
          exact Or.inr (Or.inl ⟨top, by rw [hid], none_ready nodes⟩)
        · exact Or.inl hu
    | abort id => exact Or.inl (hforgets ((onAbort_spec id).of_eq h))
    | cleanStop id node appIndex =>
      rcases onCleanStop_ok h with ⟨-, rfl⟩ | ⟨o, -, rfl⟩
      · exact Or.inl hu
      · exact Or.inl hu
    | emulationReady id node =>
      obtain ⟨nodes, hlookup, hnode, hgo, hstall⟩ := onEmulationReady_ok h
      have hmarked : (m.mark id nodes node).emulationsAndTheirNodes.lookup u = some nodes' := by
        by_cases hs : m.Stalls env id node
        · exact hforgets (hstall hs)
        · rwa [← hgo hs]
      simp only [mark, KeySet.lookup_put] at hmarked
      split at hmarked <;> rename_i hid
      · cases hmarked
        subst hid
        exact Or.inr (Or.inr ⟨uuid, node, nodes, rfl, hlookup, hnode, rfl⟩)
      · exact Or.inl hmarked
    | accepted | rejected reason =>
      cases h
      exact Or.inl hu

end OManager

end Pubapi

end Kollaps
