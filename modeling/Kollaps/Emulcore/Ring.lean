import Kollaps.Emulcore.Lap
import Kollaps.Emulcore.Runs

/-!
# The ring of an emulation

The cores of one emulation run `synchronize` together. Each one finds its place and its next host
by itself. They agree on the order, so a message goes round all of them.
-/

namespace Kollaps

open Run

namespace Emulcore

def EmulCore.ip (core : EmulCore) : IpAddr := core.myself.ipAddr

/-- The cores of one emulation: several hosts with addresses of their own, which know each other. -/
structure Together (cores : List EmulCore) : Prop where
  two : 2 ≤ cores.length
  distinct : (cores.map EmulCore.ip).Nodup
  others : ∀ core ∈ cores, ∀ host, host ∈ core.otherHosts.elems ↔
    host ≠ core.myself ∧ ∃ other ∈ cores, other.myself = host

/-- The state of the cores by their addresses, and the connections to them. -/
structure Ring where
  now : Nat
  cores : IpAddr → Sync
  flight : IpAddr → List ECSynchroMessage

inductive RingMove where
  /-- Time passes. -/
  | tick (d : Nat)
  | enter (i : Nat)
  | receive (i : Nat)
  | read (i : Nat)
  | send (i : Nat)
  | wake (i : Nat)
  /-- A core gives up, or is stopped from outside. -/
  | abort (i : Nat)
deriving DecidableEq, Repr

namespace Ring

def start : Ring := ⟨0, fun _ => Sync.build, fun _ => []⟩

def set (w : Ring) (ip : IpAddr) (s : Sync) (flight : IpAddr → List ECSynchroMessage) : Ring :=
  { w with cores := Function.update w.cores ip s, flight }

/-- A move that cannot be made now is an assertion that fails. -/
def step (iter : Nat → Iter) (cores : List EmulCore) (w : Ring) : RingMove → Run Ring
  | .tick d => pure { w with now := w.now + d }
  | .enter i => do
    let core ← get cores i
    let s := w.cores core.ip
    if s.state = .idle then
      pure (w.set core.ip (s.enter (core.all (iter i)).length (core.iamLeader (iter i)) w.now) w.flight)
    else .error .assertion
  | .receive i => do
    let core ← get cores i
    let s := w.cores core.ip
    match w.flight core.ip with
    | [] => .error .assertion
    | message :: rest =>
      if s.state = .waiting then
        pure (w.set core.ip (s.receive (core.iamLeader (iter i)) message)
          (Function.update w.flight core.ip rest))
      else .error .assertion
  | .read i => do
    let core ← get cores i
    match (w.cores core.ip).read (core.iamLeader (iter i)) w.now with
    | some s => pure (w.set core.ip s w.flight)
    | none => .error .assertion
  | .send i => do
    let core ← get cores i
    let s := w.cores core.ip
    match s.state with
    | .sending message => do
      let next ← core.nextHost (iter i)
      pure (w.set core.ip (s.sent (core.iamLeader (iter i)) message)
        (Function.update w.flight next.ipAddr (w.flight next.ipAddr ++ [message])))
    | _ => .error .assertion
  | .wake i => do
    let core ← get cores i
    let s := w.cores core.ip
    if s.state = .sleeping ∧ s.beginTime ≤ w.now then
      pure (w.set core.ip { s with state := .done } w.flight)
    else .error .assertion
  | .abort i => do
    let core ← get cores i
    let s := w.cores core.ip
    if s.state ≠ .done then pure (w.set core.ip { s with state := .failed } w.flight)
    else .error .assertion

def messages (cores : List EmulCore) (w : Ring) : List ECSynchroMessage :=
  cores.flatMap fun core => w.flight core.ip ++ (w.cores core.ip).state.carried.toList

end Ring

/-! ## The order -/

/-- The order of the hosts, as every one of them computes it. -/
def ringOf (cores : List EmulCore) : List IpAddr := sortIps (cores.map EmulCore.ip)

namespace Together

variable {cores : List EmulCore} {core : EmulCore}

theorem all_eq (h : Together cores) (hcore : core ∈ cores) (it : Iter) : core.all it = ringOf cores := by
  have hmyself : core.myself ∉ it.order core.otherHosts.elems := by
    rw [it.mem_order, h.others core hcore]
    exact fun hne => hne.1 rfl
  have hnodup : (it.order core.otherHosts.elems ++ [core.myself]).Nodup := by
    rw [List.nodup_append]
    refine ⟨(it.perm _).nodup_iff.mpr core.otherHosts.elems_nodup, by simp, fun a ha b hb => ?_⟩
    rintro rfl
    rw [List.mem_singleton] at hb
    exact hmyself (hb ▸ ha)
  have hhosts : (cores.map EmulCore.myself).Nodup := by
    apply List.Nodup.of_map ClusterNodeInfo.ipAddr
    rw [List.map_map]
    exact h.distinct
  have hperm : (it.order core.otherHosts.elems ++ [core.myself]).Perm (cores.map EmulCore.myself) := by
    rw [List.perm_ext_iff_of_nodup hnodup hhosts]
    intro host
    rw [List.mem_append, it.mem_order, h.others core hcore, List.mem_singleton, List.mem_map]
    constructor
    · rintro (⟨-, hin⟩ | rfl)
      · exact hin
      · exact ⟨core, hcore, rfl⟩
    · intro hin
      by_cases heq : host = core.myself
      · exact Or.inr heq
      · exact Or.inl ⟨heq, hin⟩
  have hips := hperm.map ClusterNodeInfo.ipAddr
  rw [List.map_append, List.map_map] at hips
  exact sortIps_congr hips

theorem nodup (h : Together cores) : (ringOf cores).Nodup := (sortIps_perm _).nodup_iff.mpr h.distinct

theorem length_ring : (ringOf cores).length = cores.length := by
  rw [ringOf, (sortIps_perm _).length_eq, List.length_map]

theorem mem_ring (hcore : core ∈ cores) : core.ip ∈ ringOf cores :=
  (sortIps_perm _).mem_iff.mpr (List.mem_map_of_mem hcore)

theorem position_lt (hcore : core ∈ cores) : (ringOf cores).idxOf core.ip < cores.length := by
  rw [← length_ring]
  exact List.idxOf_lt_length_of_mem (mem_ring hcore)

theorem iamLeader_eq (h : Together cores) (hcore : core ∈ cores) (it : Iter) :
    core.iamLeader it = decide ((ringOf cores).idxOf core.ip = 0) := by
  rw [EmulCore.iamLeader, EmulCore.myPosition, h.all_eq hcore]
  rfl

theorem nextHost_eq (h : Together cores) (hcore : core ∈ cores) (it : Iter) {next : ClusterNodeInfo}
    (hnext : core.nextHost it = .ok next) : next.ipAddr ∈ ringOf cores ∧
      (ringOf cores).idxOf next.ipAddr = ((ringOf cores).idxOf core.ip + 1) % cores.length := by
  unfold EmulCore.nextHost EmulCore.myPosition at hnext
  rw [h.all_eq hcore] at hnext
  obtain ⟨ip, hip, hnext⟩ := of_bind_eq_ok hnext
  cases hnext
  rw [get_eq_ok, List.getElem?_eq_some_iff] at hip
  obtain ⟨hlt, rfl⟩ := hip
  refine ⟨List.getElem_mem hlt, ?_⟩
  rw [h.nodup.idxOf_getElem]
  rw [length_ring]
  rfl

theorem ip_inj (h : Together cores) {other : EmulCore} (hcore : core ∈ cores) (hother : other ∈ cores)
    (hpos : (ringOf cores).idxOf core.ip = (ringOf cores).idxOf other.ip) : core = other :=
  List.inj_on_of_nodup_map h.distinct hcore hother ((List.idxOf_inj (mem_ring hcore)).mp hpos)

end Together

/-- The cores that the hosts of a network build for one emulation are together. -/
theorem together_of_new {g : Network Node} {uuid : Uuid} {leader : ClusterNodeInfo}
    {hosts : List ClusterNodeInfo} {cores : List EmulCore} (hhosts : ∀ host, host ∈ hosts ↔ IsHost g host)
    (hdistinct : (hosts.map ClusterNodeInfo.ipAddr).Nodup) (htwo : 2 ≤ hosts.length)
    (hnew : List.Forall₂ (fun host core => ∃ it, new it uuid g host leader = .ok core) hosts cores) :
    Together cores := by
  have hmyself : cores.map EmulCore.myself = hosts := by
    clear hhosts hdistinct htwo
    induction hnew with
    | nil => rfl
    | cons h _ ih =>
      obtain ⟨it, h⟩ := h
      rw [List.map_cons, ih, (new_inv h).2]
  have hothers : ∀ core ∈ cores, CoreInv g core := by
    clear hhosts hdistinct htwo hmyself
    induction hnew with
    | nil => simp
    | cons h _ ih =>
      obtain ⟨it, h⟩ := h
      rw [List.forall_mem_cons]
      exact ⟨(new_inv h).1, ih⟩
  refine ⟨?_, ?_, fun core hcore host => ?_⟩
  · rwa [← hmyself, List.length_map] at htwo
  · rw [← hmyself, List.map_map] at hdistinct
    exact hdistinct
  · rw [(hothers core hcore).others, and_comm, ← hhosts, ← hmyself, List.mem_map]

/-! ## Positions -/

namespace Ring

variable {α : Type} {ring : List IpAddr} {ip : IpAddr}

/-- What belongs to the address at each position. -/
def byPosition (ring : List IpAddr) (default : α) (f : IpAddr → α) (p : Nat) : α :=
  match ring[p]? with
  | some ip => f ip
  | none => default

theorem byPosition_idxOf (default : α) (f : IpAddr → α) (hip : ip ∈ ring) :
    byPosition ring default f (ring.idxOf ip) = f ip := by
  simp only [byPosition, List.getElem?_idxOf hip]

theorem byPosition_const (default : α) : byPosition ring default (fun _ => default) = fun _ => default := by
  funext p
  unfold byPosition
  split <;> rfl

theorem byPosition_update (hnodup : ring.Nodup) (default : α) (f : IpAddr → α) (hip : ip ∈ ring) (x : α) :
    byPosition ring default (Function.update f ip x) =
      Function.update (byPosition ring default f) (ring.idxOf ip) x := by
  funext p
  rw [Function.update_apply]
  split <;> rename_i hp
  · rw [hp, byPosition_idxOf default _ hip, Function.update_self]
  · simp only [byPosition]
    cases hget : ring[p]? with
    | none => rfl
    | some ip' =>
      refine Function.update_of_ne ?_ _ _
      rintro rfl
      obtain ⟨hlt, rfl⟩ := List.getElem?_eq_some_iff.mp hget
      exact hp (hnodup.idxOf_getElem p hlt).symm

/-- The ring by positions. -/
def lap (ring : List IpAddr) (w : Ring) : Lap where
  now := w.now
  core := byPosition ring Sync.build w.cores
  flight := byPosition ring [] w.flight

theorem lap_core (w : Ring) (hip : ip ∈ ring) : (w.lap ring).core (ring.idxOf ip) = w.cores ip :=
  byPosition_idxOf _ _ hip

theorem lap_flight (w : Ring) (hip : ip ∈ ring) : (w.lap ring).flight (ring.idxOf ip) = w.flight ip :=
  byPosition_idxOf _ _ hip

theorem lap_set (hnodup : ring.Nodup) (w : Ring) (hip : ip ∈ ring) (s : Sync)
    (flight : IpAddr → List ECSynchroMessage) : (w.set ip s flight).lap ring =
      (w.lap ring).set (ring.idxOf ip) s (byPosition ring [] flight) := by
  simp only [lap, set, Lap.set, byPosition_update hnodup _ _ hip]

theorem core_of_step {cores : List EmulCore} {i : Nat} {f : EmulCore → Run Ring} {w' : Ring}
    (h : (get cores i >>= f) = .ok w') :
    ∃ core ∈ cores, core.ip ∈ ringOf cores ∧ f core = .ok w' := by
  obtain ⟨core, hget, h⟩ := of_bind_eq_ok h
  have hcore : core ∈ cores := List.mem_of_getElem? (get_eq_ok.mp hget)
  exact ⟨core, hcore, Together.mem_ring hcore, h⟩

theorem step_turn {iter : Nat → Iter} {cores : List EmulCore} (h : Together cores) {w w' : Ring}
    {move : RingMove} (hstep : step iter cores w move = .ok w') :
    Lap.Turn cores.length (w.lap (ringOf cores)) (w'.lap (ringOf cores)) := by
  have hnodup := h.nodup
  cases move with
  | tick d =>
    cases hstep
    exact .tick _ d
  | enter i =>
    obtain ⟨core, hcore, hip, hstep⟩ := core_of_step hstep
    simp only at hstep
    split at hstep
    · rename_i hs
      cases hstep
      rw [lap_set hnodup w hip, h.all_eq hcore, Together.length_ring, h.iamLeader_eq hcore, ← lap_core w hip]
      exact .enter (Together.position_lt hcore) (by rw [lap_core w hip]; exact hs)
    · cases hstep
  | receive i =>
    obtain ⟨core, hcore, hip, hstep⟩ := core_of_step hstep
    simp only at hstep
    split at hstep
    · cases hstep
    · rename_i message rest hflight
      split at hstep
      · rename_i hs
        cases hstep
        rw [lap_set hnodup w hip, byPosition_update hnodup _ _ hip, h.iamLeader_eq hcore, ← lap_core w hip]
        exact .receive (Together.position_lt hcore) (by rw [lap_core w hip]; exact hs)
          (by rw [lap_flight w hip]; exact hflight)
      · cases hstep
  | read i =>
    obtain ⟨core, hcore, hip, hstep⟩ := core_of_step hstep
    split at hstep
    · rename_i s hs
      cases hstep
      rw [lap_set hnodup w hip]
      rw [h.iamLeader_eq hcore, ← lap_core w hip] at hs
      exact .read (Together.position_lt hcore) hs
    · cases hstep
  | send i =>
    obtain ⟨core, hcore, hip, hstep⟩ := core_of_step hstep
    simp only at hstep
    split at hstep
    · rename_i message hs
      obtain ⟨next, hnext, hstep⟩ := of_bind_eq_ok hstep
      cases hstep
      obtain ⟨hmem, hpos⟩ := h.nextHost_eq hcore _ hnext
      rw [lap_set hnodup w hip, byPosition_update hnodup _ _ hmem, h.iamLeader_eq hcore, ← lap_core w hip,
        ← lap_flight w hmem, hpos]
      exact .send (Together.position_lt hcore) (by rw [lap_core w hip]; exact hs)
    · cases hstep
  | wake i =>
    obtain ⟨core, hcore, hip, hstep⟩ := core_of_step hstep
    simp only at hstep
    split at hstep
    · rename_i hs
      cases hstep
      rw [lap_set hnodup w hip, ← lap_core w hip]
      exact .wake (Together.position_lt hcore) (by rw [lap_core w hip]; exact hs.1)
        (by rw [lap_core w hip]; exact hs.2)
    · cases hstep
  | abort i =>
    obtain ⟨core, hcore, hip, hstep⟩ := core_of_step hstep
    simp only at hstep
    split at hstep
    · rename_i hs
      cases hstep
      rw [lap_set hnodup w hip, ← lap_core w hip]
      exact .abort (Together.position_lt hcore) (by rw [lap_core w hip]; exact hs)
    · cases hstep

theorem inv_run {iter : Nat → Iter} {cores : List EmulCore} (h : Together cores) {moves : List RingMove}
    {w : Ring} (hrun : moves.foldlM (step iter cores) start = .ok w) :
    ∃ tok, Lap.Inv cores.length (w.lap (ringOf cores)) tok := by
  refine foldlM_ok_inv (fun w => ∃ tok, Lap.Inv cores.length (w.lap (ringOf cores)) tok) ⟨none, ?_⟩
    (fun move _ w w' hw hstep => ?_) hrun
  · have hstart : start.lap (ringOf cores) = Lap.start := by
      simp only [lap, start, Lap.start, byPosition_const]
    rw [hstart]
    exact Lap.inv_start
  · obtain ⟨tok, hinv⟩ := hw
    exact hinv.turn h.two (step_turn h hstep)

/-! ## Agreement -/

theorem length_flatMap_le_one {α β : Type} {f : α → List β} {l : List α} (hl : l.Nodup)
    (hone : ∀ x ∈ l, (f x).length ≤ 1) (honly : ∀ x ∈ l, ∀ y ∈ l, f x ≠ [] → f y ≠ [] → x = y) :
    (l.flatMap f).length ≤ 1 := by
  induction l with
  | nil => simp
  | cons x l ih =>
    rw [List.nodup_cons] at hl
    rw [List.flatMap_cons, List.length_append]
    have hrest := ih hl.2 (fun y hy => hone y (List.mem_cons_of_mem _ hy))
      fun y hy z hz => honly y (List.mem_cons_of_mem _ hy) z (List.mem_cons_of_mem _ hz)
    by_cases hx : f x = []
    · simpa [hx] using hrest
    · have hnil : l.flatMap f = [] := by
        rw [List.flatMap_eq_nil_iff]
        intro y hy
        by_contra hne
        have heq := honly x List.mem_cons_self y (List.mem_cons_of_mem _ hy) hx hne
        exact hl.1 (heq ▸ hy)
      rw [hnil]
      exact hone x List.mem_cons_self

theorem length_messages_le_one {cores : List EmulCore} (h : Together cores) {w : Ring}
    {tok : Option Lap.Token} (hinv : Lap.Inv cores.length (w.lap (ringOf cores)) tok) :
    (w.messages cores).length ≤ 1 := by
  refine length_flatMap_le_one h.distinct.of_map (fun core hin => ?_) fun core hin other hin' hne hne' => ?_
  · have hp := Together.position_lt hin
    rw [← lap_core w (Together.mem_ring hin), ← lap_flight w (Together.mem_ring hin), List.length_append]
    cases hf : (w.lap (ringOf cores)).flight ((ringOf cores).idxOf core.ip) with
    | nil => cases ((w.lap (ringOf cores)).core ((ringOf cores).idxOf core.ip)).state.carried <;> simp
    | cons m rest =>
      rw [(hinv.flight _ hp m rest hf).1, (hinv.flying hp hf).1 _ hp]
      simp
  · by_contra hdiff
    have hp := Together.position_lt hin
    have hp' := Together.position_lt hin'
    have hpos : (ringOf cores).idxOf other.ip ≠ (ringOf cores).idxOf core.ip :=
      fun heq => hdiff (h.ip_inj hin hin' heq.symm)
    rw [← lap_core w (Together.mem_ring hin), ← lap_flight w (Together.mem_ring hin)] at hne
    rw [← lap_core w (Together.mem_ring hin'), ← lap_flight w (Together.mem_ring hin')] at hne'
    cases hf : (w.lap (ringOf cores)).flight ((ringOf cores).idxOf core.ip) with
    | cons m rest =>
      obtain ⟨hcarried, hempty⟩ := hinv.flying hp hf
      exact hne' (by rw [hempty _ hp' hpos, hcarried _ hp']; rfl)
    | nil =>
      cases hc : ((w.lap (ringOf cores)).core ((ringOf cores).idxOf core.ip)).state.carried with
      | none => exact hne (by rw [hf, hc]; rfl)
      | some m =>
        obtain ⟨hcarried, hempty⟩ := hinv.alone hp hc
        exact hne' (by rw [hempty _ hp', hcarried _ hp' hpos]; rfl)

/-- At any time one message at most is under way. Cores that return `Ok` have the same time to
begin, and each one has found the confirmation to be before it. -/
theorem start_agreement {iter : Nat → Iter} {cores : List EmulCore} (h : Together cores)
    {moves : List RingMove} {w : Ring} (hrun : moves.foldlM (step iter cores) start = .ok w) :
    (w.messages cores).length ≤ 1 ∧
    (∀ core ∈ cores, ∀ other ∈ cores, (w.cores core.ip).state = .done → (w.cores other.ip).state = .done →
      (w.cores core.ip).beginTime = (w.cores other.ip).beginTime) ∧
    ∀ core ∈ cores, (w.cores core.ip).state = .done →
      ∃ x, (w.cores core.ip).checkedAt = some x ∧ x < (w.cores core.ip).beginTime := by
  obtain ⟨tok, hinv⟩ := inv_run h hrun
  have hdone : ∀ core ∈ cores, (w.cores core.ip).state = .done →
      ∃ x, (w.cores core.ip).checkedAt = some x ∧ x < (w.cores core.ip).beginTime ∧
        (w.cores core.ip).beginTime = ((w.lap (ringOf cores)).core 0).beginTime := by
    intro core hin hs
    have hc := hinv.core _ (Together.position_lt hin)
    rw [lap_core w (Together.mem_ring hin)] at hc
    obtain ⟨x, hx⟩ := Option.ne_none_iff_exists'.mp (hc.passed (Or.inr (Or.inl hs)))
    exact ⟨x, hx, (hc.checked x hx).2⟩
  refine ⟨length_messages_le_one h hinv, fun core hin other hin' hs hs' => ?_, fun core hin hs => ?_⟩
  · obtain ⟨-, -, -, h₁⟩ := hdone core hin hs
    obtain ⟨-, -, -, h₂⟩ := hdone other hin' hs'
    rw [h₁, h₂]
  · obtain ⟨x, hx, hlt, -⟩ := hdone core hin hs
    exact ⟨x, hx, hlt⟩

/-- A lap that takes too long, a lap of the second proposal, and the confirmation. -/
def twoLaps : List RingMove :=
  [.enter 0, .enter 1, .send 0, .tick (fromSecs 6), .receive 1, .send 1, .receive 0, .read 0, .read 0,
    .read 0, .send 0, .receive 1, .send 1, .receive 0, .read 0, .read 0, .send 0, .receive 1, .read 1,
    .send 1, .receive 0, .read 0, .tick (fromSecs 20), .wake 0, .wake 1]

theorem start_agreement_demo : ∃ core other w,
    twoLaps.foldlM (step (fun _ => .inOrder) [core, other]) start = .ok w ∧
      ∃ x, (w.cores core.ip).checkedAt = some x ∧ x < (w.cores core.ip).beginTime := by
  obtain ⟨core, hcore, other, hother, w, hw, hdone⟩ :
      Returns (new .inOrder ⟨0⟩ (demoNet 1) (demoHost 0) (demoHost 0)) fun core =>
        Returns (new .inOrder ⟨0⟩ (demoNet 1) (demoHost 1) (demoHost 0)) fun other =>
          Returns (twoLaps.foldlM (step (fun _ => .inOrder) [core, other]) start) fun w =>
            (w.cores core.ip).state = .done := by decide +kernel
  have hhosts : ∀ host, host ∈ [demoHost 0, demoHost 1] ↔ IsHost (demoNet 1) host := by
    intro host
    simp only [IsHost, demoNet, demoApp, List.map_cons, List.map_nil, List.mem_cons, List.not_mem_nil,
      or_false, Node.app.injEq]
    constructor
    · rintro (rfl | rfl)
      · exact ⟨0, _, Or.inr ⟨rfl, rfl⟩, rfl⟩
      · exact ⟨1, _, Or.inl ⟨rfl, rfl⟩, rfl⟩
    · rintro ⟨id, app, ⟨-, rfl⟩ | ⟨-, rfl⟩, hhost⟩
      · exact Or.inr (Option.some.inj hhost).symm
      · exact Or.inl (Option.some.inj hhost).symm
  have htogether : Together [core, other] :=
    together_of_new hhosts (by decide) (by decide) (.cons ⟨_, hcore⟩ (.cons ⟨_, hother⟩ .nil))
  exact ⟨core, other, w, hw, (start_agreement htogether hw).2.2 core (by simp) hdone⟩

end Ring

end Emulcore

end Kollaps
