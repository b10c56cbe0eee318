import Kollaps.Reporter.Probe

/-!
# From frames to flow updates

The probe, the events that the analyzer has yet to read, and the analyzer: the reporter of an
application. Events may be lost on the way, and they are read at any later time.
-/

namespace Kollaps

open Run Act

namespace Reporter

structure Watch where
  probe : Probe
  events : List Message
  analyzer : UsageAnalyzer

namespace Watch

def start (config : ReporterConfig) (ip : IpAddr) : Watch :=
  ⟨Probe.new, [], UsageAnalyzer.build config ip⟩

inductive Input where
  | frame (frame : UInt64 × SkBuff)
  /-- The next event is read. -/
  | read (now : Nat)
  /-- An event does not fit into the buffer. -/
  | lose (i : Nat)
  | tick (it : Iter) (now : Nat)

def step (bpf : Redbpf) (w : Watch) : Input → Act EmulMessage Watch
  | .frame frame => do
    let program := w.probe.measureTcpLifetime bpf frame
    let probe ← liftM program.result
    pure { w with probe, events := w.events ++ program.log }
  | .read now =>
    match w.events with
    | [] => pure w
    | message :: events => pure { w with events, analyzer := w.analyzer.listenEbpf now message }
  | .lose i => pure { w with events := w.events.eraseIdx i }
  | .tick it now => do
    let analyzer ← w.analyzer.checkFlows it now
    pure { w with analyzer }

end Watch

def framesOf (is : List Watch.Input) : List (UInt64 × SkBuff) :=
  is.filterMap fun
    | .frame frame => some frame
    | _ => none

/-! ## What a tick sends -/

/-- A flow update about a destination in use: its last throughput, or the end. -/
def Tells (u : UsageAnalyzer) (m : EmulMessage) : Prop :=
  ∃ key entry, u.usage.lookup key = some entry ∧ u.config.ignoreThreshold < entry.1 ∧
    ∃ throughput, m = .flowUpdate ⟨u.myIp, toIpAddrU32 key, throughput⟩ ∧
      (throughput = none ∨ throughput = some entry.1)

theorem checkEntry_tells {u : UsageAnalyzer} {now : Nat} {s : OldValues × List (BitVec 32)}
    {entry : BitVec 32 × Nat × Nat} (h : entry ∈ u.usage.elems) :
    Does (u.checkEntry now s entry) (Tells u) fun _ => True := by
  obtain ⟨key, throughput, reported⟩ := entry
  have hlookup : u.usage.lookup key = some (throughput, reported) := KeySet.lookup_eq_some.mpr h
  unfold UsageAnalyzer.checkEntry
  simp only
  split <;> rename_i hthreshold
  · exact Does.pure trivial
  have habove : u.config.ignoreThreshold < throughput := Nat.lt_of_not_le hthreshold
  split
  · refine Does.bind (Q := fun _ => True) (Does.emit ?_ trivial) fun _ _ => Does.pure trivial
    exact ⟨key, _, hlookup, habove, none, rfl, Or.inl rfl⟩
  split
  · refine Does.bind (Q := fun _ => True) (Does.emit ?_ trivial) fun _ _ => Does.pure trivial
    exact ⟨key, _, hlookup, habove, some throughput, rfl, Or.inr rfl⟩
  · exact Does.pure trivial

theorem checkFlows_tells (it : Iter) (u : UsageAnalyzer) (now : Nat) :
    Does (u.checkFlows it now) (Tells u) fun u' => u'.config = u.config ∧ u'.myIp = u.myIp ∧
      ∀ key entry, u'.usage.lookup key = some entry → u.usage.lookup key = some entry := by
  unfold UsageAnalyzer.checkFlows
  refine Does.bind (Q := fun _ => True) ?_ ?_
  · refine Does.foldlM (fun s entry hentry _ => ?_) trivial
    exact checkEntry_tells (it.mem_order.mp hentry)
  · rintro ⟨oldValues, toRemove⟩ -
    refine Does.pure ⟨rfl, rfl, fun key entry h => ?_⟩
    rw [show _ = (toRemove.foldl KeySet.remove u.usage).lookup key from rfl,
      KeySet.lookup_foldl_remove] at h
    split at h
    · cases h
    · exact h

/-! ## Runs -/

/-- Everything that is on its way was reported by the probe. -/
structure Watch.Inv (config : ReporterConfig) (ip : IpAddr) (messages : List Message) (log : List EmulMessage)
    (w : Watch) : Prop where
  config_eq : w.analyzer.config = config
  myIp : w.analyzer.myIp = ip
  events : ∀ m ∈ w.events, m ∈ messages
  usage : ∀ key entry, w.analyzer.usage.lookup key = some entry →
    (⟨key, entry.1⟩ : Message) ∈ messages ∧ toIpAddrU32 key ≠ ip
  sent : ∀ m ∈ log, ∃ key throughput, (⟨key, throughput⟩ : Message) ∈ messages ∧ toIpAddrU32 key ≠ ip ∧
    config.ignoreThreshold < throughput ∧
    (m = .flowUpdate ⟨ip, toIpAddrU32 key, none⟩ ∨ m = .flowUpdate ⟨ip, toIpAddrU32 key, some throughput⟩)

theorem Watch.Inv.more {config : ReporterConfig} {ip : IpAddr} {messages : List Message}
    {log : List EmulMessage} {w : Watch} (h : w.Inv config ip messages log) (new : List Message) :
    w.Inv config ip (messages ++ new) log := by
  refine ⟨h.config_eq, h.myIp, fun m hm => List.mem_append_left _ (h.events m hm), fun key entry he => ?_,
    fun m hm => ?_⟩
  · obtain ⟨hmem, hne⟩ := h.usage key entry he
    exact ⟨List.mem_append_left _ hmem, hne⟩
  · obtain ⟨key, throughput, hmem, hrest⟩ := h.sent m hm
    exact ⟨key, throughput, List.mem_append_left _ hmem, hrest⟩

theorem Watch.Inv.read {config : ReporterConfig} {ip : IpAddr} {messages : List Message}
    {log : List EmulMessage} {w : Watch} (h : w.Inv config ip messages log) {message : Message}
    {events : List Message} (hevents : w.events = message :: events) (now : Nat) :
    Watch.Inv config ip messages log { w with events, analyzer := w.analyzer.listenEbpf now message } := by
  have hmem : message ∈ messages := h.events _ (by rw [hevents]; exact List.mem_cons_self)
  have hrest : ∀ m ∈ events, m ∈ messages := fun m hm =>
    h.events m (by rw [hevents]; exact List.mem_cons_of_mem _ hm)
  unfold UsageAnalyzer.listenEbpf
  split <;> rename_i hself
  · exact ⟨h.config_eq, h.myIp, hrest, h.usage, h.sent⟩
  · refine ⟨h.config_eq, h.myIp, hrest, fun key entry he => ?_, h.sent⟩
    rw [show _ = (w.analyzer.usage.put message.dst (message.throughput, now)).lookup key from rfl,
      KeySet.lookup_put] at he
    split at he <;> rename_i hkey
    · cases he
      rw [hkey]
      exact ⟨hmem, h.myIp ▸ hself⟩
    · exact h.usage key entry he

theorem Watch.Inv.tick {config : ReporterConfig} {ip : IpAddr} {messages : List Message}
    {log : List EmulMessage} {w : Watch} (h : w.Inv config ip messages log) (it : Iter) (now : Nat)
    {analyzer : UsageAnalyzer} (he : (w.analyzer.checkFlows it now).result = .ok analyzer) :
    Watch.Inv config ip messages (log ++ (w.analyzer.checkFlows it now).log) { w with analyzer } := by
  have hdoes := checkFlows_tells it w.analyzer now
  obtain ⟨hconfig, hip, husage⟩ := hdoes.result _ he
  refine ⟨hconfig.trans h.config_eq, hip.trans h.myIp, h.events,
    fun key entry hk => h.usage key entry (husage key entry hk), fun m hm => ?_⟩
  rcases List.mem_append.mp hm with hm | hm
  · exact h.sent m hm
  · obtain ⟨key, entry, hlookup, habove, throughput, rfl, hthroughput⟩ := hdoes.log m hm
    obtain ⟨hmem, hne⟩ := h.usage key entry hlookup
    refine ⟨key, entry.1, hmem, hne, h.config_eq ▸ habove, ?_⟩
    rw [h.myIp]
    rcases hthroughput with rfl | rfl
    · exact Or.inl rfl
    · exact Or.inr rfl

theorem framesOf_snoc (is : List Watch.Input) (i : Watch.Input) : framesOf (is ++ [i]) =
    framesOf is ++ framesOf [i] := List.filterMap_append

/-- The probe of a run is the probe alone on the frames of the run. -/
theorem watch_inv {bpf : Redbpf} {config : ReporterConfig} {ip : IpAddr} {is : List Watch.Input}
    {log : List EmulMessage}
    {w : Watch} (h : History (Watch.step bpf) (Watch.start config ip) is log w) :
    ((framesOf is).foldlM (Probe.measureTcpLifetime bpf) Probe.new).result = .ok w.probe ∧
      w.Inv config ip ((framesOf is).foldlM (Probe.measureTcpLifetime bpf) Probe.new).log log := by
  refine h.inv (fun is log w =>
    ((framesOf is).foldlM (Probe.measureTcpLifetime bpf) Probe.new).result = .ok w.probe ∧
      w.Inv config ip ((framesOf is).foldlM (Probe.measureTcpLifetime bpf) Probe.new).log log) ?_ ?_
  · exact ⟨rfl, rfl, rfl, by simp [Watch.start], fun _ _ he => (by cases he), by simp⟩
  · rintro is log w i w' ⟨hprobe, hinv⟩ hs
    rw [framesOf_snoc]
    cases i with
    | frame frame =>
      unfold Watch.step at hs ⊢
      obtain ⟨probe, hframe, hs, hlog⟩ := Act.of_bind_eq_ok hs
      rw [hlog]
      cases hs
      have hone : (framesOf [.frame frame]) = [frame] := rfl
      rw [hone, foldlM_snoc hprobe]
      refine ⟨hframe, ?_⟩
      simp only [log_lift, log_pure, List.append_nil]
      have hmore := hinv.more (w.probe.measureTcpLifetime bpf frame).log
      refine ⟨hmore.config_eq, hmore.myIp, fun m hm => ?_, hmore.usage, hmore.sent⟩
      rcases List.mem_append.mp hm with hm | hm
      · exact hmore.events m hm
      · exact List.mem_append_right _ hm
    | read now =>
      have hnone : framesOf [.read now] = [] := rfl
      rw [hnone, List.append_nil]
      unfold Watch.step at hs ⊢
      cases hevents : w.events with
      | nil =>
        simp only [hevents] at hs ⊢
        cases hs
        rw [log_pure, List.append_nil]
        exact ⟨hprobe, hinv⟩
      | cons message events =>
        simp only [hevents] at hs ⊢
        cases hs
        rw [log_pure, List.append_nil]
        exact ⟨hprobe, hinv.read hevents now⟩
    | lose j =>
      have hnone : framesOf [.lose j] = [] := rfl
      rw [hnone, List.append_nil]
      cases hs
      rw [show (Watch.step bpf w (.lose j)).log = [] from rfl, List.append_nil]
      exact ⟨hprobe, hinv.config_eq, hinv.myIp,
        fun m hm => hinv.events m (List.mem_of_mem_eraseIdx hm), hinv.usage, hinv.sent⟩
    | tick it now =>
      have hnone : framesOf [.tick it now] = [] := rfl
      rw [hnone, List.append_nil]
      unfold Watch.step at hs ⊢
      obtain ⟨analyzer, htick, hs, hlog⟩ := Act.of_bind_eq_ok hs
      rw [hlog]
      cases hs
      rw [log_pure, List.append_nil]
      exact ⟨hprobe, hinv.tick it now htick⟩

theorem Tiling.split {start stop : UInt64} {windows : List Window} (h : Tiling start windows stop)
    {w : Window}
    (hw : w ∈ windows) : ∃ before after, windows = before ++ w :: after ∧ Tiling start before w.start := by
  induction h with
  | nil => simp at hw
  | @snoc windows w' h ih =>
    rcases List.mem_append.mp hw with hw | hw
    · obtain ⟨before, after, rfl, hbefore⟩ := ih hw
      exact ⟨before, after ++ [w'], by simp, hbefore⟩
    · rw [List.mem_singleton.mp hw]
      exact ⟨windows, [], rfl, h⟩

theorem Tiling.last {first : Packet} {windows : List Window} {stop : UInt64}
    (h : Tiling first.time windows stop) :
    ∃ p ∈ (first :: windows.flatMap Window.packets).getLast?, p.time = stop := by
  cases h with
  | nil => exact ⟨first, rfl, rfl⟩
  | @snoc windows w h =>
    refine ⟨w.last, ?_, rfl⟩
    rw [List.flatMap_append, List.flatMap_singleton, Window.packets, ← List.append_assoc, ← List.cons_append,
      List.getLast?_concat]
    rfl

/-- Whatever is lost or late on the way, a flow update that carries a throughput is from the own
address to another one, above the threshold, and what it carries was measured over some of the packets
that the application sent there, more than a tenth of a second after those before. -/
theorem sent_was_measured {bpf : Redbpf} (hbpf : bpf.Bounded) {config : ReporterConfig}
    {ip : IpAddr} {is : List Watch.Input}
    {log : List EmulMessage} {w : Watch} (h : History (Watch.step bpf) (Watch.start config ip) is log w)
    {conf : FlowConf} {v : Nat} (hsent : .flowUpdate conf ∈ log) (hv : conf.throughput = some v) :
    conf.src = ip ∧ config.ignoreThreshold < v ∧ ∃ dst, conf.dest = toIpAddrU32 dst ∧ conf.dest ≠ ip ∧
      ∃ window : Window, window.throughput.toNat = v ∧ ∃ before after,
        packetsTo bpf dst (framesOf is) = before ++ window.packets ++ after ∧
        ∃ p ∈ before.getLast?, p.time = window.start := by
  obtain ⟨hprobe, hinv⟩ := watch_inv h
  obtain ⟨key, throughput, hmem, hne, habove, hm⟩ := hinv.sent _ hsent
  obtain rfl : conf = ⟨ip, toIpAddrU32 key, some throughput⟩ := by
    rcases hm with hm | hm
    · cases hm
      cases hv
    · cases hm
      rfl
  cases hv
  refine ⟨rfl, habove, key, rfl, hne, ?_⟩
  have hacc := measure_accounted hbpf hprobe key
  have hreport : v ∈ reportsOf key ((framesOf is).foldlM (Probe.measureTcpLifetime bpf) Probe.new).log :=
    List.mem_filterMap.mpr ⟨_, hmem, if_pos rfl⟩
  cases hsince : w.probe.time.lookup key with
  | none =>
    rw [(hacc.full hsince).1] at hreport
    simp at hreport
  | some since =>
    obtain ⟨first, windows, rest, hpackets, htiling, hreports, -⟩ := (hacc.metered since hsince).windows
    rw [hreports] at hreport
    obtain ⟨window, hwindow, rfl⟩ := List.mem_map.mp hreport
    obtain ⟨before, after, rfl, hbefore⟩ := htiling.split hwindow
    refine ⟨window, rfl, first :: before.flatMap Window.packets, after.flatMap Window.packets ++ rest, ?_,
      hbefore.last⟩
    rw [hpackets]
    simp

def watchConfig : ReporterConfig := ⟨5, 5, 2000⟩

def watchInputs : List Watch.Input :=
  demoFrames.map .frame ++ [.read 300000000, .tick .inOrder 300000001]

theorem sent_was_measured_demo : ∃ dst : BitVec 32, IpAddr.v4 0x0a000002 = toIpAddrU32 dst ∧
    ∃ window : Window, window.throughput.toNat = 97 ∧ ∃ before after,
      packetsTo demoRedbpf dst (framesOf watchInputs) = before ++ window.packets ++ after := by
  obtain ⟨w, hw, -⟩ :
    Returns (watchInputs.foldlM (Watch.step demoRedbpf) (Watch.start watchConfig (.v4 1))).result
      fun _ => True := by decide +kernel
  have hsent : .flowUpdate ⟨.v4 1, .v4 0x0a000002, some 97⟩ ∈
      (watchInputs.foldlM (Watch.step demoRedbpf) (Watch.start watchConfig (.v4 1))).log := by decide +kernel
  obtain ⟨-, -, dst, hdst, -, window, hv, before, after, hpackets, -⟩ :=
    sent_was_measured demoRedbpf_bounded (History.of_foldlM .start hw) hsent rfl
  exact ⟨dst, hdst, window, hv, before, after, hpackets⟩

end Reporter

end Kollaps
