import Kollaps.Reporter.Basic
import Mathlib.Tactic.Linarith

/-!
# What the emulation knows of the traffic

The last value sent for a destination stands for its traffic. An entry at or below the
threshold is skipped before its age is looked at.
-/

namespace Kollaps

open Run Act

namespace Reporter

/-- The value that was sent last for a destination. -/
def announced (log : List EmulMessage) (dest : IpAddr) : Option Nat :=
  log.foldl (fun last m => match m with
    | .flowUpdate conf => if conf.dest = dest then conf.throughput else last
    | _ => last) none

@[simp] theorem announced_append (log : List EmulMessage) (src dest : IpAddr) (throughput : Option Nat)
    (d : IpAddr) : announced (log ++ [.flowUpdate ⟨src, dest, throughput⟩]) d =
      if dest = d then throughput else announced log d := by
  unfold announced
  rw [List.foldl_append]
  rfl

/-- The entry is recent, and the value sent is within the tolerance of it. -/
def Near (c : ReporterConfig) (now v : Nat) (entry : Nat × Nat) : Prop :=
  now - entry.2 ≤ c.killFlowDuration ∧ |(v : ℚ) - entry.1| * 100 < c.percentageVariation * v

def Fresh (log : List EmulMessage) (now : Nat) (u : UsageAnalyzer) : Prop :=
  ∀ dest v, announced log dest = some v → ∃ key entry, dest = toIpAddrU32 key ∧
    u.usage.lookup key = some entry ∧ Near u.config now v entry

/-- No destination has fallen to the threshold since its last value was sent, unless this value
is near it still. -/
def UsageAnalyzer.Above (u : UsageAnalyzer) (now : Nat) : Prop :=
  ∀ key v entry, u.oldValues.lookup key = some v → u.usage.lookup key = some entry →
    entry.1 ≤ u.config.ignoreThreshold → Near u.config now v entry

/-! ## One entry -/

def Expired (c : ReporterConfig) (now : Nat) (entry : Nat × Nat) : Prop :=
  c.ignoreThreshold < entry.1 ∧ now - entry.2 > c.killFlowDuration

/-- The value sent last, once an entry has been looked at. -/
inductive Verdict (c : ReporterConfig) (now : Nat) (old : Option Nat) (entry : Nat × Nat) : Option Nat → Prop
  | ignored (h : entry.1 ≤ c.ignoreThreshold) : Verdict c now old entry old
  | killed (h : Expired c now entry) : Verdict c now old entry none
  | updated (habove : c.ignoreThreshold < entry.1) (hage : now - entry.2 ≤ c.killFlowDuration) :
      Verdict c now old entry (some entry.1)
  | kept (habove : c.ignoreThreshold < entry.1) (hage : now - entry.2 ≤ c.killFlowDuration)
      (h : UsageAnalyzer.percentageVariation old entry.1 < c.percentageVariation) :
      Verdict c now old entry old

theorem Verdict.of_some {c : ReporterConfig} {now v : Nat} {old v' : Option Nat} {entry : Nat × Nat}
    (h : Verdict c now old entry v') (hv : v' = some v) :
    ¬ Expired c now entry ∧ (old = some v ∨ c.ignoreThreshold < v) := by
  cases h with
  | ignored hlow => exact ⟨fun hexp => absurd hexp.1 (by omega), .inl hv⟩
  | killed => cases hv
  | updated habove hage =>
    cases hv
    exact ⟨fun hexp => absurd hexp.2 (by omega), .inr habove⟩
  | kept _ hage => exact ⟨fun hexp => absurd hexp.2 (by omega), .inl hv⟩

/-- A change within the tolerance, as the loop computes it. -/
theorem near_of_variation {c : ReporterConfig} {v throughput : Nat} (hv : 0 < v)
    (h : UsageAnalyzer.percentageVariation (some v) throughput < c.percentageVariation) :
    |(v : ℚ) - throughput| * 100 < c.percentageVariation * v := by
  have hpos : (0 : ℚ) < v := by exact_mod_cast hv
  calc |(v : ℚ) - throughput| * 100
    _ = |(v : ℚ) - throughput| / v * 100 * v := by field_simp
    _ < c.percentageVariation * v := mul_lt_mul_of_pos_right h hpos

theorem Verdict.near {c : ReporterConfig} {now v : Nat} {old v' : Option Nat} {entry : Nat × Nat}
    (h : Verdict c now old entry v') (hv : v' = some v) (hpos : 0 < c.percentageVariation)
    (hold : ∀ o, old = some o → 0 < o) (habove : c.ignoreThreshold < entry.1) : Near c now v entry := by
  cases h with
  | ignored hlow => omega
  | killed => cases hv
  | updated _ hage =>
    cases hv
    refine ⟨hage, ?_⟩
    have hentry : (0 : ℚ) < entry.1 := by exact_mod_cast (by omega : 0 < entry.1)
    rw [sub_self, abs_zero, zero_mul]
    exact mul_pos hpos hentry
  | kept _ hage hvary => exact ⟨hage, near_of_variation (hold v hv) (hv ▸ hvary)⟩

theorem Verdict.of_low {c : ReporterConfig} {now : Nat} {old v' : Option Nat} {entry : Nat × Nat}
    (h : Verdict c now old entry v') (hlow : entry.1 ≤ c.ignoreThreshold) : v' = old := by
  cases h with
  | ignored | kept => rfl
  | killed hexp => exact absurd hexp.1 (by omega)
  | updated habove => omega

section

variable {u : UsageAnalyzer} {now : Nat} {s s' : OldValues × List (BitVec 32)} {key : BitVec 32}
  {entry : Nat × Nat}

theorem checkEntry_spec (h : (u.checkEntry now s (key, entry)).result = .ok s') :
    ∃ v, Verdict u.config now (s.1.lookup key) entry v ∧
      (∀ k, s'.1.lookup k = if k = key then v else s.1.lookup k) ∧
      (∀ k, k ∈ s'.2 ↔ k ∈ s.2 ∨ (k = key ∧ Expired u.config now entry)) ∧
      (∀ log dest, (announced log (toIpAddrU32 key) = s.1.lookup key) →
        announced (log ++ (u.checkEntry now s (key, entry)).log) dest =
          if toIpAddrU32 key = dest then v else announced log dest) := by
  obtain ⟨throughput, reported⟩ := entry
  unfold UsageAnalyzer.checkEntry at h ⊢
  simp only at h ⊢
  have hsame : ∀ log dest, announced log (toIpAddrU32 key) = s.1.lookup key →
      announced (log ++ []) dest = if toIpAddrU32 key = dest then s.1.lookup key else announced log dest := by
    intro log dest hlog
    rw [List.append_nil]
    split <;> rename_i hdest
    · rw [← hdest, hlog]
    · rfl
  have hkeep : ∀ k, s.1.lookup k = if k = key then s.1.lookup key else s.1.lookup k := fun k => by
    split <;> simp_all
  split at h <;> rename_i hthreshold
  · rw [if_pos hthreshold]
    cases h
    have hnot : ¬ Expired u.config now (throughput, reported) := fun hexp =>
      absurd hexp.1 (by simpa using hthreshold)
    exact ⟨_, .ignored hthreshold, hkeep, by simp [hnot], hsame⟩
  · rw [if_neg hthreshold]
    have habove : u.config.ignoreThreshold < throughput := Nat.lt_of_not_le hthreshold
    split at h <;> rename_i hage
    · rw [if_pos hage]
      cases h
      have hexp : Expired u.config now (throughput, reported) := ⟨habove, hage⟩
      refine ⟨none, .killed hexp, fun k => KeySet.lookup_remove _ _ _, fun k => ?_, fun log dest _ => ?_⟩
      · simp [hexp]
      · exact announced_append log _ _ _ dest
    · rw [if_neg hage]
      have hnot : ¬ Expired u.config now (throughput, reported) := fun hexp => hage hexp.2
      split at h <;> rename_i hvary
      · rw [if_pos hvary]
        cases h
        refine ⟨some throughput, .updated habove (Nat.le_of_not_lt hage), fun k => KeySet.lookup_put _ _ _ _,
          by simp [hnot], fun log dest _ => ?_⟩
        exact announced_append log _ _ _ dest
      · rw [if_neg hvary]
        cases h
        exact ⟨_, .kept habove (Nat.le_of_not_lt hage) (lt_of_not_ge hvary), hkeep, by simp [hnot], hsame⟩

end

/-! ## One iteration -/

/-- The values sent last are those that the loop keeps, and every one of them has its entry. -/
structure Synced (log : List EmulMessage) (u : UsageAnalyzer) : Prop where
  announced : ∀ key, announced log (toIpAddrU32 key) = u.oldValues.lookup key
  v6 : ∀ addr, Reporter.announced log (.v6 addr) = none
  pos : ∀ key v, u.oldValues.lookup key = some v → 0 < v
  used : ∀ key v, u.oldValues.lookup key = some v → u.usage.lookup key ≠ none

theorem Synced.start (config : ReporterConfig) (ip : IpAddr) : Synced [] (.build config ip) :=
  ⟨fun _ => rfl, fun _ => rfl, nofun, nofun⟩

theorem Synced.listenEbpf {log : List EmulMessage} {u : UsageAnalyzer} (h : Synced log u) (now : Nat)
    (message : Message) : Synced log (u.listenEbpf now message) := by
  unfold UsageAnalyzer.listenEbpf
  split
  · exact h
  · refine ⟨h.announced, h.v6, h.pos, fun key v hv => ?_⟩
    rw [KeySet.lookup_put]
    split
    · simp
    · exact h.used key v hv

structure Swept (u : UsageAnalyzer) (now : Nat) (log : List EmulMessage)
    (done : List (BitVec 32 × Nat × Nat)) (log' : List EmulMessage) (s : OldValues × List (BitVec 32)) :
    Prop where
  announced : ∀ key, announced (log ++ log') (toIpAddrU32 key) = s.1.lookup key
  v6 : ∀ addr, Reporter.announced (log ++ log') (.v6 addr) = none
  seen : ∀ key entry, (key, entry) ∈ done →
    Verdict u.config now (u.oldValues.lookup key) entry (s.1.lookup key)
  unseen : ∀ key, key ∉ done.map Prod.fst → s.1.lookup key = u.oldValues.lookup key
  removed : ∀ key, key ∈ s.2 ↔ ∃ entry, (key, entry) ∈ done ∧ Expired u.config now entry

theorem Swept.step {u : UsageAnalyzer} {now : Nat} {log log' : List EmulMessage}
    {done : List (BitVec 32 × Nat × Nat)} {s s' : OldValues × List (BitVec 32)} {key : BitVec 32}
    {entry : Nat × Nat} (h : Swept u now log done log' s) (hnew : key ∉ done.map Prod.fst)
    (hs' : (u.checkEntry now s (key, entry)).result = .ok s') :
    Swept u now log (done ++ [(key, entry)]) (log' ++ (u.checkEntry now s (key, entry)).log) s' := by
  obtain ⟨v, hv, hold, hremove, hsent⟩ := checkEntry_spec hs'
  have hsent := fun dest => hsent (log ++ log') dest (h.announced key)
  simp only [List.append_assoc] at hsent
  have hinj : ∀ k, toIpAddrU32 key = toIpAddrU32 k ↔ k = key := fun k =>
    ⟨fun heq => by cases heq; rfl, fun heq => heq ▸ rfl⟩
  refine ⟨fun k => ?_, fun addr => ?_, fun k e hk => ?_, fun k hk => ?_, fun k => ?_⟩
  · rw [hsent, hold, h.announced]
    simp only [hinj]
  · rw [hsent, if_neg (by simp [toIpAddrU32]), h.v6]
  · rcases List.mem_append.mp hk with hk | hk
    · have hne : k ≠ key := fun heq => hnew (heq ▸ List.mem_map_of_mem hk)
      rw [hold, if_neg hne]
      exact h.seen k e hk
    · obtain ⟨rfl, rfl⟩ := Prod.mk.inj (List.mem_singleton.mp hk)
      rw [hold, if_pos rfl, ← h.unseen _ hnew]
      exact hv
  · rw [List.map_append, List.mem_append, not_or] at hk
    rw [hold, if_neg (by simpa using hk.2)]
    exact h.unseen k hk.1
  · rw [hremove, h.removed]
    constructor
    · rintro (⟨e, he, hexp⟩ | ⟨rfl, hexp⟩)
      · exact ⟨e, List.mem_append_left _ he, hexp⟩
      · exact ⟨entry, by simp, hexp⟩
    · rintro ⟨e, he, hexp⟩
      rcases List.mem_append.mp he with he | he
      · exact .inl ⟨e, he, hexp⟩
      · obtain ⟨rfl, rfl⟩ := Prod.mk.inj (List.mem_singleton.mp he)
        exact .inr ⟨rfl, hexp⟩

structure Ticked (u : UsageAnalyzer) (now : Nat) (log : List EmulMessage) (u' : UsageAnalyzer) : Prop where
  config : u'.config = u.config
  announced : ∀ key, announced log (toIpAddrU32 key) = u'.oldValues.lookup key
  v6 : ∀ addr, Reporter.announced log (.v6 addr) = none
  unused : ∀ key, u.usage.lookup key = none → u'.oldValues.lookup key = u.oldValues.lookup key
  verdict : ∀ key entry, u.usage.lookup key = some entry →
    Verdict u.config now (u.oldValues.lookup key) entry (u'.oldValues.lookup key)
  gone : ∀ key entry, u.usage.lookup key = some entry → Expired u.config now entry →
    u'.usage.lookup key = none
  stays : ∀ key entry, u.usage.lookup key = some entry → ¬ Expired u.config now entry →
    u'.usage.lookup key = some entry

theorem checkFlows_ticked {log : List EmulMessage} {u u' : UsageAnalyzer} (h : Synced log u) {it : Iter}
    {now : Nat} (hu' : (u.checkFlows it now).result = .ok u') :
    Ticked u now (log ++ (u.checkFlows it now).log) u' := by
  unfold UsageAnalyzer.checkFlows at hu' ⊢
  obtain ⟨s, hs, hu', hlog⟩ := of_bind_eq_ok hu'
  rw [hlog]
  cases hu'
  have hnodup : ((it.order u.usage.elems).map Prod.fst).Nodup :=
    ((it.perm u.usage.elems).map Prod.fst).symm.nodup u.usage.nodup
  have hswept : Swept u now log (it.order u.usage.elems)
      ((it.order u.usage.elems).foldlM (u.checkEntry now) (u.oldValues, [])).log s := by
    refine foldlM_ok_log (Swept u now log) ?_ (fun done x rest log' s s' hx hdone hs' => ?_) hs
    · exact ⟨by simpa using h.announced, by simpa using h.v6, by simp, fun _ _ => rfl, by simp⟩
    · refine hdone.step ?_ hs'
      rw [hx, List.map_append, List.map_cons] at hnodup
      exact fun hmem => (List.nodup_append.mp hnodup).2.2 _ hmem _ List.mem_cons_self rfl
  have hmem : ∀ key entry, (key, entry) ∈ it.order u.usage.elems ↔ u.usage.lookup key = some entry :=
    fun key entry => it.mem_order.trans KeySet.lookup_eq_some.symm
  have hremoved : ∀ key entry, u.usage.lookup key = some entry →
      (key ∈ s.2 ↔ Expired u.config now entry) := fun key entry hentry => by
    rw [hswept.removed]
    constructor
    · rintro ⟨e, he, hexp⟩
      rw [hmem, hentry] at he
      cases he
      exact hexp
    · exact fun hexp => ⟨entry, (hmem key entry).mpr hentry, hexp⟩
  simp only [log_pure, List.append_nil]
  refine ⟨rfl, hswept.announced, hswept.v6, fun key hnone => hswept.unseen key ?_,
    fun key entry hentry => hswept.seen key entry ((hmem key entry).mpr hentry),
    fun key entry hentry hexp => ?_, fun key entry hentry hexp => ?_⟩
  · intro hkey
    obtain ⟨⟨k, e⟩, he, rfl⟩ := List.mem_map.mp hkey
    rw [(hmem k e).mp he] at hnone
    cases hnone
  · show (s.2.foldl KeySet.remove u.usage).lookup key = none
    rw [KeySet.lookup_foldl_remove, if_pos ((hremoved key entry hentry).mpr hexp)]
  · show (s.2.foldl KeySet.remove u.usage).lookup key = some entry
    rw [KeySet.lookup_foldl_remove, if_neg (mt (hremoved key entry hentry).mp hexp), hentry]

theorem Synced.ticked {log log' : List EmulMessage} {u u' : UsageAnalyzer} {now : Nat} (h : Synced log u)
    (ht : Ticked u now log' u') : Synced log' u' := by
  have hentry : ∀ key v, u'.oldValues.lookup key = some v → 0 < v ∧ u'.usage.lookup key ≠ none := by
    intro key v hv
    cases hentry : u.usage.lookup key with
    | none =>
      rw [ht.unused key hentry] at hv
      exact absurd hentry (h.used key v hv)
    | some entry =>
      obtain ⟨hexp, hold⟩ := (ht.verdict key entry hentry).of_some hv
      rw [ht.stays key entry hentry hexp]
      refine ⟨?_, by simp⟩
      rcases hold with hold | hold
      · exact h.pos key v hold
      · omega
  exact ⟨ht.announced, ht.v6, fun key v hv => (hentry key v hv).1, fun key v hv => (hentry key v hv).2⟩

theorem Synced.of_trace {config : ReporterConfig} {ip : IpAddr} {log : List EmulMessage} {u : UsageAnalyzer}
    (h : Trace step (.build config ip) log u) : Synced log u ∧ u.config = config := by
  refine Trace.inv (fun log u => Synced log u ∧ u.config = config) ⟨.start config ip, rfl⟩ ?_ h
  rintro log u i u' - ⟨hu, hconfig⟩ hu'
  cases i with
  | message now message =>
    cases hu'
    refine ⟨?_, ?_⟩
    · show Synced (log ++ []) _
      rw [List.append_nil]
      exact hu.listenEbpf now message
    · rw [← hconfig, UsageAnalyzer.listenEbpf]
      split <;> rfl
  | tick it now =>
    have ht := checkFlows_ticked hu hu'
    exact ⟨hu.ticked ht, ht.config.trans hconfig⟩

/-- After an iteration the emulation knows of the traffic as it is exactly when no destination
had fallen to the threshold, far from the value that was sent last. -/
theorem fresh_iff_above {config : ReporterConfig} {ip : IpAddr} {log : List EmulMessage}
    {u u' : UsageAnalyzer} {it : Iter} {now : Nat} (hpos : 0 < config.percentageVariation)
    (h : Trace step (.build config ip) log u) (hu' : (u.checkFlows it now).result = .ok u') :
    Fresh (log ++ (u.checkFlows it now).log) now u' ↔ u.Above now := by
  obtain ⟨hsynced, hconfig⟩ := Synced.of_trace h
  have ht := checkFlows_ticked hsynced hu'
  constructor
  · -- What is at the threshold is left as it was.
    intro hfresh key v entry hv hentry hlow
    have hold := ((ht.verdict key entry hentry).of_low hlow).trans hv
    obtain ⟨key', entry', hdest, hentry', hnear⟩ := hfresh _ v ((ht.announced key).trans hold)
    cases hdest
    rw [ht.stays key entry hentry fun hexp => absurd hexp.1 (by omega)] at hentry'
    cases hentry'
    exact ht.config ▸ hnear
  · intro habove dest v hv
    obtain ⟨key, rfl⟩ : ∃ key, dest = toIpAddrU32 key := by
      cases dest with
      | v4 key => exact ⟨key, rfl⟩
      | v6 addr =>
        rw [ht.v6] at hv
        cases hv
    rw [ht.announced] at hv
    cases hentry : u.usage.lookup key with
    | none =>
      rw [ht.unused key hentry] at hv
      exact absurd hentry (hsynced.used key v hv)
    | some entry =>
      have hverdict := ht.verdict key entry hentry
      refine ⟨key, entry, rfl, ht.stays key entry hentry (hverdict.of_some hv).1, ?_⟩
      rw [ht.config]
      rcases Nat.lt_or_ge u.config.ignoreThreshold entry.1 with hhigh | hlow
      · exact hverdict.near hv (hconfig ▸ hpos) (hsynced.pos key) hhigh
      · exact habove key v entry ((hverdict.of_low hlow).symm.trans hv) hentry hlow

def demoConfig : ReporterConfig := ⟨5, 5, 2000⟩

def demoAnalyzer : UsageAnalyzer := .build demoConfig (.v4 1)

def steadyAnalyzer : UsageAnalyzer := .build ⟨10, 95, 2000⟩ (.v4 1)

def steadyInputs : List Input := [.message 0 ⟨7, 100⟩, .tick .inOrder 1000, .message 2000 ⟨7, 95⟩]

/-- A flow of 100 falls to a threshold that is near: it stays announced with 100. -/
theorem fresh_demo : ∃ u u', (steadyInputs.foldlM step steadyAnalyzer).result = .ok u ∧
    (u.checkFlows .inOrder 3000).result = .ok u' ∧
    u.oldValues.lookup 7 = some 100 ∧ u.usage.lookup 7 = some (u.config.ignoreThreshold, 2000) ∧
    announced ((steadyInputs.foldlM step steadyAnalyzer).log ++ (u.checkFlows .inOrder 3000).log)
      (.v4 7) = some 100 ∧
    Fresh ((steadyInputs.foldlM step steadyAnalyzer).log ++ (u.checkFlows .inOrder 3000).log) 3000 u' := by
  obtain ⟨u, hu, u', hu', hold, hentry, hsent, hconfig, holds⟩ :
      Returns (steadyInputs.foldlM step steadyAnalyzer).result fun u =>
        Returns (u.checkFlows .inOrder 3000).result fun _ =>
          u.oldValues.lookup 7 = some 100 ∧ u.usage.lookup 7 = some (u.config.ignoreThreshold, 2000) ∧
          announced ((steadyInputs.foldlM step steadyAnalyzer).log ++ (u.checkFlows .inOrder 3000).log)
            (.v4 7) = some 100 ∧
          u.config = steadyAnalyzer.config ∧ u.oldValues.elems = [(7, 100)] := by decide +kernel
  refine ⟨u, u', hu, hu', hold, hentry, hsent,
    (fresh_iff_above (by decide) (Trace.of_foldlM .start hu) hu').mpr ?_⟩
  intro key v entry hv hkey _
  have hmem := KeySet.lookup_eq_some.mp hv
  rw [holds, List.mem_singleton] at hmem
  cases hmem
  rw [hentry, hconfig] at hkey
  cases hkey
  rw [hconfig]
  exact ⟨by decide, by decide +kernel⟩

/-- A flow of 100 falls to 3 and then stops: minutes later it is still announced with 100. -/
theorem not_fresh : ∃ log u u', Trace step demoAnalyzer log u ∧
    (u.checkFlows .inOrder 600000000000).result = .ok u' ∧
    ¬ Fresh (log ++ (u.checkFlows .inOrder 600000000000).log) 600000000000 u' := by
  obtain ⟨u, hu, u', hu', hsent, hentry, hconfig⟩ : Returns ([.message 0 ⟨7, 100⟩, .tick .inOrder 1000,
      .message 2000 ⟨7, 3⟩].foldlM step demoAnalyzer).result fun u =>
        Returns (u.checkFlows .inOrder 600000000000).result fun u' =>
          announced (([.message 0 ⟨7, 100⟩, .tick .inOrder 1000, .message 2000 ⟨7, 3⟩].foldlM step
            demoAnalyzer).log ++ (u.checkFlows .inOrder 600000000000).log) (.v4 7) = some 100 ∧
          u'.usage.lookup 7 = some (3, 2000) ∧ u'.config = demoConfig := by decide +kernel
  refine ⟨_, u, u', Trace.of_foldlM .start hu, hu', fun hfresh => ?_⟩
  obtain ⟨key, entry, hdest, hentry', hnear⟩ := hfresh _ 100 hsent
  cases hdest
  rw [hentry] at hentry'
  cases hentry'
  rw [hconfig] at hnear
  exact absurd hnear.1 (by decide)

end Reporter

end Kollaps
