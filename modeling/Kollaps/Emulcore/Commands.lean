import Kollaps.Emulcore.Enforcement

/-!
# From the core to the library

The messages to a reporter go through its socket as bytes, on one connection. No task of the
reporter panics, and its calls lead traffic control to what the core means.
-/

namespace Kollaps

open Run Act
open Reporter (Shaping Arrival TcBinding heard)

namespace Emulcore

/-- What may be on the connection to a reporter. -/
inductive Command (g : Network Node) : EmulMessage → Prop
  | init {conf : TCConf} {n : Node} : Located g n conf.dest → Command g (.tcInit conf)
  | update {conf : TCConf} {n : Node} : Located g n conf.dest → Command g (.tcUpdate conf)
  | disconnect : Command g .tcDisconnect
  | reconnect : Command g .tcReconnect

theorem Meant.command {g : Network Node} {app : Node} {m : EmulMessage} (h : Meant g app m) :
    Command g m := by
  rcases h with rfl | rfl | ⟨n, dest, props, rfl, hl, -⟩
  · exact .disconnect
  · exact .reconnect
  · exact .update hl

theorem initEmulation_commands {it : Iter} {core : EmulCore} {app : Node} :
    ∀ m ∈ toldTo app (initEmulation it core).log, Command core.graph m := by
  refine toldTo_of_does (Q := fun _ => True) ?_
  unfold initEmulation
  refine Does.bind_lift fun mine hmine => ?_
  refine Does.bind_lift fun _ _ => ?_
  refine Does.foldlM (fun apps node hnode _ => ?_) trivial
  refine Does.bind_lift fun app' happ' => ?_
  refine Does.bind_lift fun ip hip => ?_
  refine (Does.emit (Q := fun _ => True) (fun m hm => ?_) trivial).bind fun _ _ => Does.pure trivial
  obtain ⟨-, rfl⟩ := told_toReporter hm
  have hmem := (mem_filterM hmine).mp (it.mem_order.mp hnode)
  have hnode' : IsNode core.graph node := by
    refine ⟨?_, ?_⟩
    · have hin := hmem.1
      rwa [Network.vertices, ((it.perm _).map _).mem_iff] at hin
    · cases node with
      | bridge id => cases happ'
      | app id a => rfl
  exact .init (hnode'.located happ' hip)

theorem Course.commands {g : Network Node} (hg : g.Wf) (hs : g.pathStrategy = .shortestPath)
    {core : EmulCore} {messages : List EmulMessage} {c : Config}
    (h : Course .wrapping g core (OpensFirst core) messages c) {s : Loop} (hloop : c.phase.loop = some s)
    {app : Node} (happ : IsNode g app) : ∀ m ∈ toldTo app c.log, Command g m := by
  induction h generalizing s with
  | init hinit =>
    cases hinit with
    | mk it hnew happs =>
      rw [← (new_inv hnew).1.graph]
      exact initEmulation_commands
  | @message messages m c c' hcourse hok hstep ih =>
    obtain ⟨hc, -, hopen⟩ := hcourse.openInv hg hs
    obtain ⟨-, -, hopen'⟩ := (hcourse.message hok hstep).openInv hg hs
    have hgraph := hc.graph
    subst hgraph
    obtain ⟨s₀, it, m', hphase, rfl, he, -, hlog⟩ := hstep.refreshed hloop
    have hloop₀ : c.phase.loop = some s₀ := by
      rw [hphase]
      rfl
    rw [hlog, toldTo_append, toldTo_append]
    intro m hm
    rcases List.mem_append.mp hm with hm | hm
    · exact ih hloop₀ m hm
    rcases List.mem_append.mp hm with hm | hm
    · exact (handle_meant hc (hopen s₀ hloop₀).apps.known happ he hm).command
    · obtain ⟨f, -, dest, hl, -, rfl⟩ := refresh_tells hc (hopen' s hloop).flows.served hm
      exact .update hl

section Bytes

variable [Serde FlowConf] [Serde TCConf] [Serde EmulationEvent]

/-- What the reporter of an app receives on its connection. -/
def received (app : Node) (log : List Effect) : List Arrival :=
  (toldTo app log).map fun m => .bytes 0 m.serializeToBytes

theorem fromBytes_command {g : Network Node} {m : EmulMessage} (h : Command g m)
    (hrestored : m.PayloadRestored) : EmulMessage.fromBytes m.serializeToBytes = .ok m := by
  refine EmulMessage.fromBytes_serializeToBytes hrestored fun a heq => ?_
  subst heq
  cases h

theorem heard_map {g : Network Node} {ms : List EmulMessage}
    (h : ∀ m ∈ ms, Command g m ∧ m.PayloadRestored) :
    heard (ms.map fun m => .bytes 0 m.serializeToBytes) = ms := by
  induction ms with
  | nil => rfl
  | cons m ms ih =>
    have hm := h m List.mem_cons_self
    have hrest := ih fun m' hin => h m' (List.mem_cons_of_mem _ hin)
    have hone : heard [.bytes 0 m.serializeToBytes] = [m] :=
      Reporter.heard_ok [] (fromBytes_command hm.1 hm.2)
    rw [List.map_cons, ← List.singleton_append, Reporter.heard_append, hone, hrest]
    rfl

/-- The commands of a log whose paths come first make no task panic. -/
theorem received_harmless {g : Network Node} (hv4 : ∀ n ip, Located g n ip → ∃ addr, ip = .v4 addr)
    {app : Node} {log : List Effect} (hfirst : PathsFirst log)
    (h : ∀ m ∈ toldTo app log, Command g m ∧ m.PayloadRestored) :
    Each Reporter.Harmless (received app log) := by
  intro pre e post hsplit
  obtain ⟨pre', rest, htold, rfl, hrest⟩ := List.map_eq_append_iff.mp hsplit
  obtain ⟨m, post', rfl, rfl, -⟩ := List.map_eq_cons_iff.mp hrest
  obtain ⟨hcommand, hrestored⟩ := h m (by rw [htold]; simp)
  have hbytes := fromBytes_command hcommand hrestored
  refine ⟨by rw [hbytes]; exact noPanic_ok m, fun m' hm' => ?_⟩
  cases Except.ok.inj (hbytes.symm.trans hm')
  cases hcommand with
  | disconnect | reconnect => trivial
  | init hl => exact hv4 _ _ hl
  | @update conf n hl =>
    obtain ⟨dest, hdest⟩ := hv4 _ _ hl
    refine ⟨dest, hdest, ?_⟩
    by_cases hcomplete : Complete conf
    · exact Or.inl hcomplete
    -- The update stands in the log where one for the same destination stands before.
    obtain ⟨before, after, hlog, hbefore, hafter⟩ := List.filterMap_eq_append_iff.mp htold
    obtain ⟨skipped, e, after', hafter', hskipped, he, -⟩ := List.filterMap_eq_cons_iff.mp hafter
    obtain ⟨a, rfl, hid⟩ : ∃ a, e = .toReporter a (.tcUpdate conf) ∧ Vertex.id a = Vertex.id app := by
      cases e with
      | toReporter a m =>
        obtain ⟨hid, rfl⟩ := told_toReporter he
        exact ⟨a, rfl, hid⟩
      | _ => cases he
    subst hafter'
    have hget : log[(before ++ skipped).length]? = some (.toReporter a (.tcUpdate conf)) := by
      rw [hlog]
      simp
    obtain ⟨e', he', hopen⟩ := hfirst _ _ hget app conf.dest ⟨hid, rfl, hcomplete⟩
    have htake : log.take (before ++ skipped).length = before ++ skipped := by
      rw [hlog, ← List.append_assoc, List.take_left]
    rw [htake] at he'
    obtain ⟨conf', hconf, hdest', -⟩ := told_of_opens he' hopen
    refine Or.inr ⟨conf', ?_, hdest'.trans hdest⟩
    have hpre : toldTo app (before ++ skipped) = pre' := by
      rw [toldTo_append, toldTo_eq_nil hskipped, List.append_nil]
      exact hbefore
    rw [hpre] at hconf
    rwa [heard_map fun m hm => h m (by rw [htold]; exact List.mem_append_left _ hm)]

/-- In a run whose paths are opened first, on a network of IPv4 addresses, the reporter of an app
carries out every command, and its calls lead traffic control to what the core means. -/
theorem library_follows_core {g : Network Node} (hb : g.Built) (hs : g.pathStrategy = .shortestPath)
    (hv4 : ∀ n ip, Located g n ip → ∃ addr, ip = .v4 addr) {core : EmulCore}
    {messages : List EmulMessage} {c : Config}
    (h : Course .wrapping g core (OpensFirst core) messages c) {s : Loop} (hloop : c.phase.loop = some s)
    {app : Node} (happ : IsNode g app) (hrestored : ∀ m ∈ toldTo app c.log, m.PayloadRestored) :
    Returns (TcBinding.run (received app c.log)).result fun b => b.dead = [] ∧
      Shaping.replay (TcBinding.run (received app c.log)).log = some (enforced app c.log) := by
  have hcommands : ∀ m ∈ toldTo app c.log, Command g m ∧ m.PayloadRestored := fun m hm =>
    ⟨h.commands hb.wf hs hloop happ m hm, hrestored m hm⟩
  have hharmless := received_harmless hv4 (h.openInv hb.wf hs).2.1 hcommands
  obtain ⟨b, hb', ⟨sh, hreplay, -, halive⟩, hdead⟩ := Reporter.listen_inv (received app c.log)
  have hd := hdead.mpr hharmless
  refine ⟨b, hb', hd, ?_⟩
  rw [hreplay, (halive hd).told, received, heard_map hcommands]
  rfl

end Bytes

/-! ## Two commands -/

def demoInit : TCConf := TCConf.default (.v4 100)

def demoPath : TCConf := whole (.v4 101) ⟨100, 0, (0, 0)⟩

def initText : String :=
  "\x7b\"dest\":\"0.0.0.100\",\"bandwidth_kbitps\":null,\"latency_and_jitter\":null,\"drop\":null\x7d"

def pathText : String :=
  "\x7b\"dest\":\"0.0.0.101\",\"bandwidth_kbitps\":100,\"latency_and_jitter\":[0.0,0.0],\"drop\":0.0\x7d"

section Demo

/-- `serde_json` on the two configurations that the first app is sent. -/
local instance : Serde TCConf :=
  ⟨fun conf => if conf = demoInit then initText else if conf = demoPath then pathText else "",
    fun text => if text = initText then some demoInit else if text = pathText then some demoPath else none⟩

local instance : Serde FlowConf := ⟨fun _ => "", fun _ => none⟩

local instance : Serde EmulationEvent := ⟨fun _ => "", fun _ => none⟩

theorem library_follows_core_join : Returns (TcBinding.run (received (demoApp 0 (demoHost 0))
    (demoRun (demoNet 1) (demoHost 0) [demoEvent 0 .join]).log)).result fun b => b.dead = [] ∧
      Shaping.replay (TcBinding.run (received (demoApp 0 (demoHost 0))
        (demoRun (demoNet 1) (demoHost 0) [demoEvent 0 .join]).log)).log =
      some (enforced (demoApp 0 (demoHost 0))
        (demoRun (demoNet 1) (demoHost 0) [demoEvent 0 .join]).log) := by
  obtain ⟨⟨core, s⟩, hrun, -⟩ : Returns (demoRun (demoNet 1) (demoHost 0)
      [demoEvent 0 .join]).result fun _ => True := by decide +kernel
  have htold : toldTo (demoApp 0 (demoHost 0)) (demoRun (demoNet 1) (demoHost 0)
      [demoEvent 0 .join]).log = [.tcInit demoInit, .tcUpdate demoPath] := by decide +kernel
  refine library_follows_core (demoNet_built 1 (Or.inr rfl)) rfl (fun n ip hl => ?_)
    (demoRun_course (fun before m after hms => ?_) hrun) (s := s) rfl ⟨by decide +kernel, rfl⟩ ?_
  · rcases demoNet_located hl with ⟨-, rfl⟩ | ⟨-, rfl⟩ <;> exact ⟨_, rfl⟩
  · rintro conf flow props rfl
    rcases before with _ | ⟨b, before⟩
    · cases hms
    · cases before <;> cases hms
  · rw [htold]
    intro m hm
    rcases List.mem_cons.mp hm with rfl | hm
    · exact ⟨by decide +kernel, by decide +kernel⟩
    · rw [List.mem_singleton.mp hm]
      exact ⟨by decide +kernel, by decide +kernel⟩

end Demo

end Emulcore

end Kollaps
