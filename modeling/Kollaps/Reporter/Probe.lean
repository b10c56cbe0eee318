import Kollaps.Common.Wire
import Kollaps.Reporter.Basic

/-!
# The probe

The socket filter that counts the bytes to each destination. The kernel hands it every frame that the
application sends. What it can read of a frame, and its maps, come from a library: they are parameters.
-/

namespace Kollaps

open Run Act

namespace Reporter

/-! ## The filter -/

/-- A frame, with the length that the kernel gives for it. -/
structure SkBuff where
  data : Bytes
  len : UInt32
deriving DecidableEq

abbrev ProbeMap := KeyMap (BitVec 32) UInt64

/-- `skb.load::<T>(offset)`, for a number of so many bytes, and `HashMap::set`. -/
structure Redbpf where
  load : SkBuff → (size offset : Nat) → Option Nat
  set : ProbeMap → BitVec 32 → UInt64 → ProbeMap

def ethLen : Nat := 14

def ethPIp : Nat := 0x0800

/-- The destination of an IPv4 packet. Every other frame is ignored, and so is one that is too short. -/
def SkBuff.destination (bpf : Redbpf) (skb : SkBuff) : Option (BitVec 32) := do
  let ethProto ← bpf.load skb 2 12
  if ethProto ≠ ethPIp then none
  else do
    let versionAndLength ← bpf.load skb 1 ethLen
    if versionAndLength / 16 ≠ 4 then none
    else do
      let dst ← bpf.load skb 4 (ethLen + 8 + 4 + 4)
      pure (BitVec.ofNat 32 dst)

def maxEntries : Nat := 4096

structure Probe where
  usage : ProbeMap
  time : ProbeMap

def Probe.new : Probe := ⟨KeySet.empty, KeySet.empty⟩

def interval : UInt64 := 100000000

/-- In KBit/s. There are no fractions in the kernel, and every operation wraps. -/
def throughputOf (bytes deltaTimeNs : UInt64) : Run UInt32 :=
  if deltaTimeNs * 1024 = 0 then .error .arith
  else pure ((bytes * 8 * 1000000000) / (deltaTimeNs * 1024)).toUInt32

/-- What `measure_tcp_lifetime` does for a packet to `dst`. -/
def Probe.count (bpf : Redbpf) (s : Probe) (dst : BitVec 32) (len currentTime : UInt64) : Act Message Probe :=
  match s.time.lookup dst with
  | none => pure { s with time := bpf.set s.time dst currentTime }
  | some oldTime =>
    match s.usage.lookup dst with
    | none => pure { s with usage := bpf.set s.usage dst len }
    | some value =>
      let newValue := value + len
      let deltaTimeNs := currentTime - oldTime
      if deltaTimeNs > interval then do
        let throughput ← throughputOf newValue deltaTimeNs
        emit ⟨dst, throughput.toNat⟩
        pure ⟨bpf.set s.usage dst 0, bpf.set s.time dst currentTime⟩
      else pure { s with usage := bpf.set s.usage dst newValue }

/-- The filter on one frame, at a time that the kernel gives in nanoseconds. -/
def Probe.measureTcpLifetime (bpf : Redbpf) (s : Probe) (frame : UInt64 × SkBuff) : Act Message Probe :=
  match frame.2.destination bpf with
  | none => pure s
  | some dst => s.count bpf dst frame.2.len.toUInt64 frame.1

/-! ## The maps -/

def ProbeMap.Room (m : ProbeMap) (k : BitVec 32) : Prop := m.contains k = true ∨ m.len < maxEntries

theorem ProbeMap.room_of_some {m : ProbeMap} {k : BitVec 32} {t : UInt64}
    (h : m.lookup k = some t) : Room m k :=
  Or.inl ((KeySet.contains_iff_lookup m k).mpr (by simp [h]))

/-- The documented maps: a full one refuses a new key. -/
structure Redbpf.Bounded (bpf : Redbpf) : Prop where
  stored : ∀ (m : ProbeMap) k v, m.Room k → bpf.set m k v = m.put k v
  refused : ∀ (m : ProbeMap) k v, ¬ m.Room k → bpf.set m k v = m

variable {bpf : Redbpf}

namespace Redbpf.Bounded

variable {m : ProbeMap} {k : BitVec 32} {v : UInt64}

theorem lookup_other (hbpf : bpf.Bounded) {k' : BitVec 32} (h : k' ≠ k) :
    (bpf.set m k v).lookup k' = m.lookup k' := by
  by_cases hroom : m.Room k
  · rw [hbpf.stored _ _ _ hroom, KeySet.lookup_put, if_neg h]
  · rw [hbpf.refused _ _ _ hroom]

theorem lookup_room (hbpf : bpf.Bounded) (h : m.Room k) : (bpf.set m k v).lookup k = some v := by
  rw [hbpf.stored _ _ _ h, KeySet.lookup_put, if_pos rfl]

theorem len_le (hbpf : bpf.Bounded) (h : m.len ≤ maxEntries) : (bpf.set m k v).len ≤ maxEntries := by
  by_cases hroom : m.Room k
  · rw [hbpf.stored _ _ _ hroom, KeySet.len_put]
    split <;> rename_i hin
    · exact h
    · exact hroom.resolve_left hin
  · rw [hbpf.refused _ _ _ hroom]
    exact h

theorem le_len (hbpf : bpf.Bounded) : m.len ≤ (bpf.set m k v).len := by
  by_cases hroom : m.Room k
  · rw [hbpf.stored _ _ _ hroom, KeySet.len_put]
    split <;> omega
  · rw [hbpf.refused _ _ _ hroom]

end Redbpf.Bounded

/-- Every destination that is counted has a time, and the times fit. -/
structure Probe.Inv (s : Probe) : Prop where
  timed : ∀ k, s.time.lookup k = none → s.usage.lookup k = none
  room : s.time.len ≤ maxEntries

theorem Probe.Inv.room_usage {s : Probe} (h : s.Inv) {k : BitVec 32} {t : UInt64}
    (ht : s.time.lookup k = some t) : ProbeMap.Room s.usage k := by
  by_cases hin : s.usage.contains k = true
  · exact Or.inl hin
  · right
    have hsub : (k :: s.usage.keys) ⊆ s.time.keys := by
      intro k' hk'
      rw [← KeySet.contains_iff, KeySet.contains_iff_lookup]
      intro hnone
      rcases List.mem_cons.mp hk' with rfl | hk'
      · rw [ht] at hnone
        cases hnone
      · rw [← KeySet.contains_iff, KeySet.contains_iff_lookup] at hk'
        exact hk' (h.timed _ hnone)
    have hnodup : (k :: s.usage.keys).Nodup :=
      List.nodup_cons.mpr ⟨fun hk => hin (KeySet.contains_iff.mpr hk), KeySet.nodup _⟩
    have hle := (List.subperm_of_subset hnodup hsub).length_le
    have hroom := h.room
    simp only [List.length_cons, KeySet.keys, List.length_map] at hle
    unfold KeySet.len at hroom ⊢
    omega

/-! ## Windows -/

structure Packet where
  time : UInt64
  len : UInt32
deriving DecidableEq

def bytesOf (packets : List Packet) : Nat := (packets.map fun p => p.len.toNat).sum

/-- A packet that comes late enough for a report. -/
def Packet.Late (p : Packet) (start : UInt64) : Prop := p.time - start > interval

/-- The packets that one report is about: they come after `start`, and the last of them is the first
that is late. When there was no report before, a packet is counted without a look at its time. -/
structure Window where
  start : UInt64
  before : List Packet
  last : Packet
  late : last.Late start
  early : ∀ p ∈ before.tail, ¬ p.Late start
  throughput : UInt32
  measured : throughputOf (UInt64.ofNat (bytesOf (before ++ [last]))) (last.time - start) = .ok throughput

def Window.packets (w : Window) : List Packet := w.before ++ [w.last]

inductive Tiling (start : UInt64) : List Window → UInt64 → Prop
  | nil : Tiling start [] start
  | snoc {windows : List Window} {w : Window} (h : Tiling start windows w.start) :
      Tiling start (windows ++ [w]) w.last.time

/-- How the packets to a destination are counted: its reports, its time and its pending bytes. -/
inductive Metered : List Packet → List Nat → UInt64 → Option UInt64 → Prop
  | first (p : Packet) : Metered [p] [] p.time none
  | counted (first : Packet) {windows : List Window} {rest : List Packet} {since : UInt64}
      (h : Tiling first.time windows since) (hsome : windows ≠ [] ∨ rest ≠ [])
      (hrest : ∀ p ∈ rest.tail, ¬ p.Late since) (hall : windows ≠ [] → ∀ p ∈ rest, ¬ p.Late since) :
      Metered (first :: (windows.flatMap Window.packets ++ rest))
        (windows.map fun w => w.throughput.toNat) since (some (UInt64.ofNat (bytesOf rest)))

/-- What the probe does with a packet to a destination that has a time. -/
inductive Counts (bpf : Redbpf) (s : Probe) (dst : BitVec 32) (p : Packet) (since : UInt64) :
    List Message → Probe → Prop
  | second (h : s.usage.lookup dst = none) :
      Counts bpf s dst p since [] { s with usage := bpf.set s.usage dst p.len.toUInt64 }
  | more {value : UInt64} (h : s.usage.lookup dst = some value) (hlate : ¬ p.Late since) :
      Counts bpf s dst p since [] { s with usage := bpf.set s.usage dst (value + p.len.toUInt64) }
  | report {value : UInt64} {throughput : UInt32} (h : s.usage.lookup dst = some value)
      (hlate : p.Late since) (hr : throughputOf (value + p.len.toUInt64) (p.time - since) = .ok throughput) :
      Counts bpf s dst p since [⟨dst, throughput.toNat⟩] ⟨bpf.set s.usage dst 0, bpf.set s.time dst p.time⟩

theorem count_cases {s s' : Probe} {dst : BitVec 32} {p : Packet} {since : UInt64}
    (hsince : s.time.lookup dst = some since)
    (h : (s.count bpf dst p.len.toUInt64 p.time).result = .ok s') :
    Counts bpf s dst p since (s.count bpf dst p.len.toUInt64 p.time).log s' := by
  unfold Probe.count at h ⊢
  simp only [hsince] at h ⊢
  cases hvalue : s.usage.lookup dst with
  | none =>
    simp only [hvalue] at h ⊢
    cases h
    exact .second hvalue
  | some value =>
    simp only [hvalue] at h ⊢
    split at h <;> rename_i hlate
    · rw [if_pos hlate]
      obtain ⟨throughput, hr, h, hlog⟩ := Act.of_bind_eq_ok h
      rw [hlog]
      cases h
      exact .report hvalue hlate hr
    · rw [if_neg hlate]
      cases h
      exact .more hvalue hlate


/-! ## One packet -/

theorem bytesOf_snoc (l : List Packet) (p : Packet) : bytesOf (l ++ [p]) = bytesOf l + p.len.toNat := by
  simp [bytesOf]

theorem ofNat_bytesOf_snoc (l : List Packet) (p : Packet) :
    UInt64.ofNat (bytesOf l) + p.len.toUInt64 = UInt64.ofNat (bytesOf (l ++ [p])) := by
  rw [bytesOf_snoc, UInt64.ofNat_add]
  congr 1
  apply UInt64.toNat_inj.mp
  have hlt := p.len.toNat_lt
  simp

theorem tail_snoc {α : Type} {P : α → Prop} {l : List α} {a : α} (h : ∀ x ∈ l.tail, P x)
    (ha : l ≠ [] → P a) : ∀ x ∈ (l ++ [a]).tail, P x := by
  cases l with
  | nil => simp
  | cons b l =>
    intro x hx
    rcases List.mem_append.mp (show x ∈ l ++ [a] from hx) with hx | hx
    · exact h x hx
    · rw [List.mem_singleton.mp hx]
      exact ha (by simp)

theorem Metered.more {packets : List Packet} {reports : List Nat} {since value : UInt64}
    (h : Metered packets reports since (some value)) {p : Packet} (hlate : ¬ p.Late since) :
    Metered (packets ++ [p]) reports since (some (value + p.len.toUInt64)) := by
  cases h with
  | @counted first windows rest _ htiling hsome hrest hall =>
    rw [ofNat_bytesOf_snoc, List.cons_append, List.append_assoc]
    refine .counted first htiling (Or.inr (by simp)) (tail_snoc hrest fun _ => hlate) fun hw q hq => ?_
    rcases List.mem_append.mp hq with hq | hq
    · exact hall hw q hq
    · rw [List.mem_singleton.mp hq]
      exact hlate

theorem Metered.second {packets : List Packet} {reports : List Nat} {since : UInt64}
    (h : Metered packets reports since none) (p : Packet) :
    Metered (packets ++ [p]) reports since (some p.len.toUInt64) := by
  cases h with
  | first q =>
    have hone := ofNat_bytesOf_snoc [] p
    have hzero : UInt64.ofNat (bytesOf []) = 0 := rfl
    rw [hzero, UInt64.zero_add] at hone
    rw [hone]
    exact @Metered.counted q [] ([] ++ [p]) _ .nil (Or.inr (by simp)) (by simp) (by simp)

/-- A late packet closes the window of those that are pending. -/
theorem Metered.report {packets : List Packet} {reports : List Nat} {since value : UInt64}
    (h : Metered packets reports since (some value)) {p : Packet} (hlate : p.Late since)
    {throughput : UInt32}
    (hr : throughputOf (value + p.len.toUInt64) (p.time - since) = .ok throughput) :
    Metered (packets ++ [p]) (reports ++ [throughput.toNat]) p.time (some 0) := by
  cases h with
  | @counted first windows rest _ htiling hsome hrest hall =>
    rw [ofNat_bytesOf_snoc] at hr
    let w : Window := ⟨since, rest, p, hlate, hrest, throughput, hr⟩
    have hnew : Tiling first.time (windows ++ [w]) p.time := Tiling.snoc (w := w) htiling
    have hm := @Metered.counted first _ [] _ hnew (Or.inl (by simp)) (by simp) (by simp)
    have hpackets : (windows ++ [w]).flatMap Window.packets ++ [] =
        windows.flatMap Window.packets ++ rest ++ [p] := by
      simp [w, Window.packets]
    rw [hpackets, List.map_append] at hm
    exact hm

/-! ## Runs -/

def packetsTo (bpf : Redbpf) (dst : BitVec 32) (frames : List (UInt64 × SkBuff)) : List Packet :=
  frames.filterMap fun f => if f.2.destination bpf = some dst then some ⟨f.1, f.2.len⟩ else none

def reportsOf (dst : BitVec 32) (log : List Message) : List Nat :=
  log.filterMap fun m => if m.dst = dst then some m.throughput else none

theorem packetsTo_snoc (dst : BitVec 32) (frames : List (UInt64 × SkBuff)) (f : UInt64 × SkBuff) :
    packetsTo bpf dst (frames ++ [f]) =
      packetsTo bpf dst frames ++ if f.2.destination bpf = some dst then [⟨f.1, f.2.len⟩] else [] := by
  unfold packetsTo
  rw [List.filterMap_append]
  split <;> simp_all

theorem reportsOf_append (dst : BitVec 32) (log es : List Message) :
    reportsOf dst (log ++ es) = reportsOf dst log ++ reportsOf dst es := List.filterMap_append

/-- What the probe knows of a destination: how its packets were counted, or that the maps were full
when the first of them came. -/
structure Accounted (dst : BitVec 32) (packets : List Packet) (reports : List Nat) (s : Probe) : Prop where
  metered : ∀ since, s.time.lookup dst = some since → Metered packets reports since (s.usage.lookup dst)
  full : s.time.lookup dst = none → reports = [] ∧ (packets ≠ [] → s.time.len = maxEntries)

theorem Probe.Inv.set_usage {s : Probe} (h : s.Inv) (hbpf : bpf.Bounded) {k : BitVec 32} {since : UInt64}
    (hk : s.time.lookup k = some since) (v : UInt64) : Probe.Inv { s with usage := bpf.set s.usage k v } := by
  refine ⟨fun k' hk' => ?_, h.room⟩
  have hne : k' ≠ k := by
    rintro rfl
    rw [hk] at hk'
    cases hk'
  exact (hbpf.lookup_other hne).trans (h.timed k' hk')

theorem Probe.Inv.set_time {s : Probe} (h : s.Inv) (hbpf : bpf.Bounded) (k : BitVec 32) (t : UInt64) :
    Probe.Inv { s with time := bpf.set s.time k t } := by
  refine ⟨fun k' hk' => h.timed k' ?_, hbpf.len_le h.room⟩
  by_cases hroom : ProbeMap.Room s.time k
  · by_cases hne : k' = k
    · rw [hne, show (({ s with time := bpf.set s.time k t } : Probe).time).lookup k = some t from
        hbpf.lookup_room hroom] at hk'
      cases hk'
    · rwa [show (({ s with time := bpf.set s.time k t } : Probe).time).lookup k' = s.time.lookup k' from
        hbpf.lookup_other hne] at hk'
  · rwa [show ({ s with time := bpf.set s.time k t } : Probe).time = s.time from
      hbpf.refused _ _ _ hroom] at hk'

theorem Accounted.of_metered {dst : BitVec 32} {packets : List Packet} {reports : List Nat} {s : Probe}
    {since : UInt64} (htime : s.time.lookup dst = some since)
    (h : Metered packets reports since (s.usage.lookup dst)) : Accounted dst packets reports s := by
  refine ⟨fun t ht => ?_, fun hnone => ?_⟩
  · cases htime.symm.trans ht
    exact h
  · rw [htime] at hnone
    cases hnone

/-- The first packet to a destination sets its time, unless the map of the times is full. -/
theorem Accounted.start (hbpf : bpf.Bounded) {s : Probe} (hinv : s.Inv) {dst : BitVec 32} {p : Packet}
    {packets : List Packet} {reports : List Nat} (h : Accounted dst packets reports s)
    (hnew : s.time.lookup dst = none) :
    Accounted dst (packets ++ [p]) reports { s with time := bpf.set s.time dst p.time } := by
  obtain ⟨rfl, hfull⟩ := h.full hnew
  by_cases hroom : ProbeMap.Room s.time dst
  · have hpackets : packets = [] := by
      by_contra hne
      have hlen := hfull hne
      rcases hroom with hin | hlt
      · exact (KeySet.contains_iff_lookup _ _).mp hin hnew
      · omega
    subst hpackets
    refine .of_metered (hbpf.lookup_room hroom) ?_
    dsimp only
    rw [hinv.timed dst hnew]
    exact .first p
  · rw [hbpf.refused _ _ _ hroom]
    refine ⟨fun since hsince => ?_, fun _ => ⟨rfl, fun _ => ?_⟩⟩
    · rw [hnew] at hsince
      cases hsince
    · exact Nat.le_antisymm hinv.room (Nat.not_lt.mp (not_or.mp hroom).2)

/-- What one packet changes: the maps at its own destination, where the account goes on. -/
theorem count_spec (hbpf : bpf.Bounded) {s s' : Probe} (hinv : s.Inv) {dst : BitVec 32} {p : Packet}
    {packets : List Packet}
    {reports : List Nat} (h : Accounted dst packets reports s)
    (hs : (s.count bpf dst p.len.toUInt64 p.time).result = .ok s') :
    s'.Inv ∧ s.time.len ≤ s'.time.len ∧
      (∀ k, k ≠ dst → s'.time.lookup k = s.time.lookup k ∧ s'.usage.lookup k = s.usage.lookup k) ∧
      (∀ m ∈ (s.count bpf dst p.len.toUInt64 p.time).log, m.dst = dst) ∧
      Accounted dst (packets ++ [p])
        (reports ++ reportsOf dst (s.count bpf dst p.len.toUInt64 p.time).log) s' := by
  cases hsince : s.time.lookup dst with
  | none =>
    have hcount : s.count bpf dst p.len.toUInt64 p.time =
        pure { s with time := bpf.set s.time dst p.time } := by
      unfold Probe.count
      rw [hsince]
    rw [hcount] at hs ⊢
    cases hs
    refine ⟨hinv.set_time hbpf dst p.time, hbpf.le_len,
      fun k hk => ⟨hbpf.lookup_other hk, rfl⟩, by simp, ?_⟩
    simpa [reportsOf] using h.start hbpf hinv hsince
  | some since =>
    have hm := h.metered since hsince
    have hroom := hinv.room_usage hsince
    have hother : ∀ (m : ProbeMap) (v : UInt64) (k : BitVec 32), k ≠ dst →
        (bpf.set m dst v).lookup k = m.lookup k := fun m v k hk => hbpf.lookup_other hk
    have hcases := count_cases hsince hs
    generalize (s.count bpf dst p.len.toUInt64 p.time).log = log at hcases ⊢
    cases hcases with
    | second hnone =>
      refine ⟨hinv.set_usage hbpf hsince _, Nat.le_refl _, fun k hk => ⟨rfl, hother _ _ k hk⟩, by simp,
        .of_metered hsince ?_⟩
      rw [hnone] at hm
      simpa [reportsOf, hbpf.lookup_room hroom] using hm.second p
    | @more value hvalue hlate =>
      refine ⟨hinv.set_usage hbpf hsince _, Nat.le_refl _, fun k hk => ⟨rfl, hother _ _ k hk⟩, by simp,
        .of_metered hsince ?_⟩
      rw [hvalue] at hm
      simpa [reportsOf, hbpf.lookup_room hroom] using hm.more hlate
    | @report value throughput hvalue hlate hr =>
      refine ⟨(hinv.set_usage hbpf hsince 0).set_time hbpf dst p.time, hbpf.le_len,
        fun k hk => ⟨hother _ _ k hk, hother _ _ k hk⟩, by simp,
        .of_metered (hbpf.lookup_room (ProbeMap.room_of_some hsince)) ?_⟩
      rw [hvalue] at hm
      simpa [reportsOf, hbpf.lookup_room hroom] using hm.report hlate hr

theorem accounted_new (dst : BitVec 32) : Accounted dst [] [] Probe.new :=
  ⟨fun _ h => (by cases h), fun _ => ⟨rfl, fun h => absurd rfl h⟩⟩

theorem measure_accounted (hbpf : bpf.Bounded) {frames : List (UInt64 × SkBuff)} {s : Probe}
    (h : (frames.foldlM (Probe.measureTcpLifetime bpf) Probe.new).result = .ok s) (dst : BitVec 32) :
    Accounted dst (packetsTo bpf dst frames)
      (reportsOf dst (frames.foldlM (Probe.measureTcpLifetime bpf) Probe.new).log) s := by
  refine (foldlM_ok_log (fun pre log s => s.Inv ∧ ∀ dst, Accounted dst (packetsTo bpf dst pre)
    (reportsOf dst log) s) ?_ ?_ h).2 dst
  · exact ⟨⟨fun _ _ => rfl, by decide⟩, accounted_new⟩
  · rintro pre ⟨time, skb⟩ post log s s' - ⟨hinv, hall⟩ hs
    unfold Probe.measureTcpLifetime at hs ⊢
    simp only at hs ⊢
    cases hdst : skb.destination bpf with
    | none =>
      rw [hdst] at hs
      cases hs
      refine ⟨hinv, fun d => ?_⟩
      simpa [packetsTo_snoc, hdst] using hall d
    | some d₀ =>
      simp only [hdst] at hs ⊢
      obtain ⟨hinv', hlen, hother, hmine, hacc⟩ :=
        count_spec hbpf hinv (p := ⟨time, skb.len⟩) (hall d₀) hs
      refine ⟨hinv', fun d => ?_⟩
      rw [packetsTo_snoc, reportsOf_append]
      simp only [hdst]
      by_cases hd : d = d₀
      · rw [hd, if_pos rfl]
        exact hacc
      · have hnone : reportsOf d (s.count bpf d₀ skb.len.toUInt64 time).log = [] := by
          unfold reportsOf
          rw [List.filterMap_eq_nil_iff]
          intro m hm
          rw [if_neg]
          rw [hmine m hm]
          exact fun heq => hd heq.symm
        rw [if_neg (by simpa using fun heq => hd heq.symm), List.append_nil, hnone, List.append_nil]
        obtain ⟨htime, husage⟩ := hother d hd
        refine ⟨fun since hs' => ?_, fun hn => ?_⟩
        · rw [husage]
          exact (hall d).metered since (htime ▸ hs')
        · obtain ⟨hreports, hfull⟩ := (hall d).full (htime ▸ hn)
          refine ⟨hreports, fun hne => ?_⟩
          have := hfull hne
          have := hinv'.room
          omega

/-! ## What a report is worth -/

/-- The bytes of a window of which the eightfold, in nanoseconds, still fits. -/
def maxWindowBytes : Nat := 2305843009

theorem throughputOf_exact {bytes : Nat} {delta : UInt64} {throughput : UInt32}
    (h : throughputOf (UInt64.ofNat bytes) delta = .ok throughput) (hbytes : bytes ≤ maxWindowBytes)
    (hlong : delta > interval) (hdelta : delta.toNat < 2 ^ 54) :
    throughput.toNat = bytes * 8 * 1000000000 / (delta.toNat * 1024) := by
  unfold throughputOf at h
  split at h <;> rename_i hzero
  · cases h
  · cases h
    unfold maxWindowBytes at hbytes
    have hd : 100000000 < delta.toNat := by simpa [interval] using UInt64.lt_iff_toNat_lt.mp hlong
    have h8 : (8 : UInt64).toNat = 8 := rfl
    have hgiga : (1000000000 : UInt64).toNat = 1000000000 := rfl
    have hkilo : (1024 : UInt64).toNat = 1024 := rfl
    have hb : (UInt64.ofNat bytes * 8 * 1000000000).toNat = bytes * 8 * 1000000000 := by
      rw [UInt64.toNat_mul, UInt64.toNat_mul, UInt64.toNat_ofNat', h8, hgiga]
      omega
    have hs : (delta * 1024).toNat = delta.toNat * 1024 := by
      rw [UInt64.toNat_mul, hkilo]
      omega
    have hq : bytes * 8 * 1000000000 / (delta.toNat * 1024) < 2 ^ 32 := by
      apply Nat.div_lt_of_lt_mul
      have hlt : 2 ^ 32 * (100000000 * 1024) ≤ delta.toNat * 1024 * 2 ^ 32 := by omega
      omega
    rw [UInt64.toNat_toUInt32, UInt64.toNat_div, hb, hs, Nat.mod_eq_of_lt hq]

theorem Window.exact (w : Window) (hbytes : bytesOf w.packets ≤ maxWindowBytes)
    (hspan : (w.last.time - w.start).toNat < 2 ^ 54) :
    w.throughput.toNat = bytesOf w.packets * 8 * 1000000000 / ((w.last.time - w.start).toNat * 1024) :=
  throughputOf_exact w.measured hbytes w.late hspan

theorem Metered.windows {packets : List Packet} {reports : List Nat} {since : UInt64} {usage : Option UInt64}
    (h : Metered packets reports since usage) : ∃ first windows rest,
      packets = first :: (windows.flatMap Window.packets ++ rest) ∧ Tiling first.time windows since ∧
        reports = windows.map (fun w => w.throughput.toNat) ∧
        usage = if windows = [] ∧ rest = [] then none else some (UInt64.ofNat (bytesOf rest)) := by
  cases h with
  | first p => exact ⟨p, [], [], rfl, .nil, rfl, rfl⟩
  | counted first htiling hsome hrest hall =>
    refine ⟨first, _, _, rfl, htiling, rfl, ?_⟩
    rw [if_neg]
    rintro ⟨hwindows, hempty⟩
    exact hsome.elim (fun h => h hwindows) fun h => h hempty

/-- After any frames, and for each destination: either its first packet met full maps and it is never
reported, or its packets after the first are cut into windows. These follow each other, every report is
the rate of one of them in KBit/s, rounded down, and what comes after the last window is pending. -/
theorem reports_are_rates (hbpf : bpf.Bounded) {frames : List (UInt64 × SkBuff)} {s : Probe}
    (h : (frames.foldlM (Probe.measureTcpLifetime bpf) Probe.new).result = .ok s) (dst : BitVec 32) :
    (s.time.lookup dst = none ∧ (packetsTo bpf dst frames ≠ [] → s.time.len = maxEntries) ∧
        reportsOf dst (frames.foldlM (Probe.measureTcpLifetime bpf) Probe.new).log = []) ∨
      ∃ first windows rest since,
        packetsTo bpf dst frames = first :: (windows.flatMap Window.packets ++ rest) ∧
        s.time.lookup dst = some since ∧ Tiling first.time windows since ∧
        reportsOf dst (frames.foldlM (Probe.measureTcpLifetime bpf) Probe.new).log =
          windows.map (fun w => w.throughput.toNat) ∧
        s.usage.lookup dst =
          (if windows = [] ∧ rest = [] then none else some (UInt64.ofNat (bytesOf rest))) ∧
        ∀ w ∈ windows, bytesOf w.packets ≤ maxWindowBytes → (w.last.time - w.start).toNat < 2 ^ 54 →
          w.throughput.toNat =
            bytesOf w.packets * 8 * 1000000000 / ((w.last.time - w.start).toNat * 1024) := by
  have hacc := measure_accounted hbpf h dst
  cases hsince : s.time.lookup dst with
  | none =>
    obtain ⟨hreports, hfull⟩ := hacc.full hsince
    exact Or.inl ⟨rfl, hfull, hreports⟩
  | some since =>
    obtain ⟨first, windows, rest, hpackets, htiling, hreports, husage⟩ := (hacc.metered since hsince).windows
    exact Or.inr ⟨first, windows, rest, since, hpackets, rfl, htiling, hreports, husage,
      fun w _ => w.exact⟩

/-- A library that reads big-endian numbers, with maps of this size. -/
def demoRedbpf : Redbpf where
  load skb size offset :=
    if offset + size ≤ skb.data.length then
      some (((skb.data.drop offset).take size).foldl (fun acc b => acc * 256 + b.toNat) 0)
    else none
  set m k v := if m.contains k ∨ m.len < maxEntries then m.put k v else m

theorem demoRedbpf_bounded : demoRedbpf.Bounded := ⟨fun _ _ _ h => if_pos h, fun _ _ _ h => if_neg h⟩

def ipFrame (a b c d : UInt8) (len : UInt32) : SkBuff :=
  ⟨List.replicate 12 0 ++ [8, 0, 0x45] ++ List.replicate 15 0 ++ [a, b, c, d], len⟩

def demoFrames : List (UInt64 × SkBuff) :=
  [(0, ipFrame 10 0 0 2 1250), (50000000, ipFrame 10 0 0 2 1250), (200000000, ipFrame 10 0 0 2 1250)]

theorem reports_are_rates_demo : ∃ windows : List Window, windows.map (fun w => w.throughput.toNat) = [97] ∧
    reportsOf (BitVec.ofNat 32 0x0a000002)
      (demoFrames.foldlM (Probe.measureTcpLifetime demoRedbpf) Probe.new).log = [97] := by
  have hlog : reportsOf (BitVec.ofNat 32 0x0a000002)
      (demoFrames.foldlM (Probe.measureTcpLifetime demoRedbpf) Probe.new).log = [97] := by decide +kernel
  obtain ⟨s, hs, -⟩ : Returns (demoFrames.foldlM (Probe.measureTcpLifetime demoRedbpf) Probe.new).result
      fun _ => True := by decide +kernel
  rcases reports_are_rates demoRedbpf_bounded hs (BitVec.ofNat 32 0x0a000002) with
    ⟨-, -, hnone⟩ | ⟨-, windows, -, -, -, -, -, hreports, -, -⟩
  · rw [hlog] at hnone
    cases hnone
  · exact ⟨windows, hreports.symm.trans hlog, hlog⟩

end Reporter

end Kollaps
