import R2.Dpdk.Pool
import R2.Packet.Fallible

namespace R2

instance : TryPool PktsDpdk where
  particle := PktsDpdk.particle
  particleSz := PktsDpdk.particleSz
  left pool := pool.dpdkPool.free.length

namespace PktsDpdk

/-- The buffer of every particle has the size of the pool. -/
def Sized (pool : PktsDpdk) : Prop := ∀ m, (pool.dpdkPool.mbuf m).raw.length = pool.particleSz

variable {pool pool' : PktsDpdk} {headroom : Nat}

theorem new_sized {numPkts numParts particleSz : Nat} {bufAddr : Mbuf → Nat}
    (made : PktsDpdk.new numPkts numParts particleSz bufAddr headroom = .ok pool) : pool.Sized := by
  unfold PktsDpdk.new at made
  split at made
  · cases made
    intro m
    simp
  · cases made

/-- What `particle` does to the pool, and the particle it makes: it starts empty, whatever the headroom. -/
theorem particle_ok (accepted : headroom ≤ pool.dpdkPool.ownHeadroom) : ∃ p free allocFail,
    pool.particle headroom = .ok (p, { pool with dpdkPool := { pool.dpdkPool with free }, allocFail }) ∧
      ∀ q ∈ p, free.length < pool.dpdkPool.free.length ∧ ∃ m, q = boxPart pool.dpdkPool m := by
  unfold particle dpdkMbufAlloc
  rw [if_pos accepted]
  cases waiting : pool.dpdkPool.free with
  | nil =>
    refine ⟨none, pool.dpdkPool.free, pool.allocFail + 1, ?_, by simp⟩
    simp only
  | cons m rest =>
    refine ⟨some (boxPart pool.dpdkPool m), rest, pool.allocFail, ?_, fun q member => ?_⟩
    · simp only [boxPart]
    · cases Option.some.inj member
      exact ⟨by simp, m, rfl⟩

theorem particle_panics (refused : ¬headroom ≤ pool.dpdkPool.ownHeadroom) :
    pool.particle headroom = .error .assertion := if_neg refused

instance : FinitePool PktsDpdk where
  accepts pool headroom := headroom ≤ pool.dpdkPool.ownHeadroom
  particle_ok {pool headroom} accepted := by
    obtain ⟨p, free, allocFail, run, supply⟩ := particle_ok accepted
    refine ⟨p, _, run, rfl, rfl, fun q member => ?_⟩
    obtain ⟨fewer, m, rfl⟩ := supply q member
    exact ⟨fewer, fun _ => Nat.zero_le _⟩
  particle_panics refused := ⟨_, particle_panics refused⟩

/-- A new packet has no headroom. -/
theorem pkt_some {pkt : Packet} (run : pool.pkt headroom = .ok (some pkt, pool')) :
    headroom ≤ pool.dpdkPool.ownHeadroom ∧ pkt.length = 0 ∧ (∃ m, pkt.particle = [boxPart pool.dpdkPool m]) ∧
      pool'.dpdkPool.headroom = pool.dpdkPool.headroom ∧ pool'.dpdkPool.mbuf = pool.dpdkPool.mbuf ∧
      pool'.dpdkPool.bufAddr = pool.dpdkPool.bufAddr ∧ pool'.particleSz = pool.particleSz := by
  unfold PktsDpdk.pkt at run
  split at run
  · rename_i accepted
    obtain ⟨p, free, allocFail, taken, supply⟩ := particle_ok accepted
    rw [taken, Except.ok_bind] at run
    cases p with
    | none => cases run
    | some q =>
      obtain ⟨_, m, rfl⟩ := supply q rfl
      dsimp only at run
      split at run
      · cases run
        exact ⟨accepted, rfl, ⟨m, rfl⟩, rfl, rfl, rfl, rfl⟩
      · cases run
  · cases run

end PktsDpdk

/-- The calls that write to a packet or move its head, here over any pool. -/
inductive Use
  | append (bytes : List UInt8)
  | prepend (bytes : List UInt8)
  | pushL2 (bytes : List UInt8)
  | pushL3 (bytes : List UInt8)
  | pullL2 (n : Nat)
  | pullL3 (n : Nat)

/-- What a call returns. -/
inductive Value
  | flag (done : Bool)
  | count (n : Nat)
deriving DecidableEq

namespace Use

/-- A call on a packet, and what it returns. -/
def run {σ : Type} [TryPool σ] (pkt : Packet) (pool : σ) : Use → Outcome (Value × Packet × σ)
  | append bytes => do
    let (done, pkt, pool) ← pkt.tryAppend pool bytes
    .ok (.flag done, pkt, pool)
  | prepend bytes => do
    let (done, pkt, pool) ← pkt.tryPrepend pool bytes
    .ok (.flag done, pkt, pool)
  | pushL2 bytes => do
    let (done, pkt, pool) ← pkt.tryPushL2 pool bytes
    .ok (.flag done, pkt, pool)
  | pushL3 bytes => do
    let (done, pkt, pool) ← pkt.tryPushL3 pool bytes
    .ok (.flag done, pkt, pool)
  | pullL2 n => do
    let (got, pkt) ← pkt.pullL2 n
    .ok (.count got, pkt, pool)
  | pullL3 n => do
    let (got, pkt) ← pkt.pullL3 n
    .ok (.count got, pkt, pool)

def runs {σ : Type} [TryPool σ] : List Use → Packet → σ → Outcome (List Value × Packet × σ)
  | [], pkt, pool => .ok ([], pkt, pool)
  | c :: rest, pkt, pool => do
    let (value, pkt, pool) ← c.run pkt pool
    let (values, pkt, pool) ← runs rest pkt pool
    .ok (value :: values, pkt, pool)

/-- The call fits in the particle. -/
def Stays (p : Particle) : Use → Prop
  | append bytes => p.tail + bytes.length ≤ p.raw.length
  | prepend bytes | pushL2 bytes | pushL3 bytes => bytes.length ≤ p.head
  | pullL2 _ | pullL3 _ => True

/-- Every call fits in the one particle of the packet. -/
def Within {σ : Type} [TryPool σ] : List Use → Packet → σ → Prop
  | [], _, _ => True
  | c :: rest, pkt, pool => (∃ p, pkt.particle = [p] ∧ c.Stays p) ∧
      ∀ value pkt' pool', c.run pkt pool = .ok (value, pkt', pool') → Within rest pkt' pool'

/-- What a call that stays does to the particle. -/
def Places (p p' : Particle) : Use → Prop
  | append bytes => p'.head = p.head ∧ p'.tail = p.tail + bytes.length ∧ p'.raw = overwrite p.raw p.tail bytes
  | prepend bytes | pushL2 bytes | pushL3 bytes =>
    p'.head = p.head - bytes.length ∧ p'.tail = p.tail ∧ p'.raw = overwrite p.raw (p.head - bytes.length) bytes
  | pullL2 n | pullL3 n => p' = (p.moveHead (Particle.toIsize n)).2

/-- What a call that stays returns. -/
def value (p : Particle) : Use → Value
  | append _ | prepend _ | pushL2 _ | pushL3 _ => .flag true
  | pullL2 n | pullL3 n => .count (if (p.moveHead (Particle.toIsize n)).1 = Particle.toIsize n then n else 0)

end Use

namespace Packet

/-- The packet is one particle, and counts its bytes. -/
structure Lone (pkt : Packet) (p : Particle) : Prop where
  single : pkt.particle = [p]
  inBounds : p.InBounds
  length : pkt.length = p.len

namespace Lone

variable {σ : Type} [TryPool σ] {pkt : Packet} {p : Particle}

theorem headroom (lone : pkt.Lone p) : pkt.headroom = .ok p.head := by
  simp [Packet.headroom, first, lone.single]

theorem data (lone : pkt.Lone p) (offset : Nat) : pkt.data offset = dataLoop offset 0 [p] := by
  simp [Packet.data, first, lone.single]

theorem prepend (lone : pkt.Lone p) (small : p.raw.length < 2 ^ 64) {bytes : List UInt8}
    (fits : bytes.length ≤ p.head) (pool : σ) : ∃ pkt' p', pkt.tryPrepend pool bytes = .ok (true, pkt', pool) ∧
      pkt'.Lone p' ∧ p'.head = p.head - bytes.length ∧ p'.tail = p.tail ∧
      p'.raw = overwrite p.raw (p.head - bytes.length) bytes := by
  obtain ⟨single, inBounds, length⟩ := lone
  have below := p.head_le_tail
  unfold Particle.InBounds at inBounds
  unfold Particle.len at length
  obtain ⟨p', run, head, tail, raw⟩ := tryPrepend_fits single inBounds fits (by omega) pool
  refine ⟨_, p', run, ⟨rfl, ?_, ?_⟩, head, tail, raw⟩
  · rw [Particle.InBounds, raw, overwrite_length (by omega), tail]
    exact inBounds
  · simp only [Particle.len]
    omega

theorem append (lone : pkt.Lone p) (small : p.raw.length < 2 ^ 64) {bytes : List UInt8}
    (fits : p.tail + bytes.length ≤ p.raw.length) (pool : σ) : ∃ pkt' p',
    pkt.tryAppend pool bytes = .ok (true, pkt', pool) ∧ pkt'.Lone p' ∧ p'.head = p.head ∧
      p'.tail = p.tail + bytes.length ∧ p'.raw = overwrite p.raw p.tail bytes := by
  obtain ⟨single, inBounds, length⟩ := lone
  have below := p.head_le_tail
  unfold Particle.len at length
  obtain ⟨p', run, head, tail, raw⟩ := tryAppend_fits single fits (by omega) pool
  refine ⟨_, p', run, ⟨rfl, ?_, ?_⟩, head, tail, raw⟩
  · rw [Particle.InBounds, raw, overwrite_length fits, tail]
    exact fits
  · simp only [Particle.len]
    omega

/-- The move of the head behind a pull. -/
theorem moveHead (lone : pkt.Lone p) (mv : Int) : ∃ got pkt', pkt.moveHead mv = .ok (got, pkt') ∧
    (got = mv ↔ (p.moveHead mv).1 = mv) ∧ pkt'.Lone (p.moveHead mv).2 := by
  obtain ⟨single, inBounds, length⟩ := lone
  have below := p.head_le_tail
  unfold Packet.moveHead
  rw [single]
  unfold Particle.moveHead
  dsimp only
  unfold Particle.len at length
  split
  · dsimp only
    split
    · exact ⟨0, _, rfl, Iff.rfl, rfl, inBounds, length⟩
    · rename_i same
      have zero : mv = 0 := (not_not.mp same).symm
      refine ⟨mv, _, rfl, by simp [zero], rfl, inBounds, ?_⟩
      simp [zero, Particle.len, length]
  · dsimp only
    rw [if_neg (not_not_intro rfl)]
    refine ⟨mv, _, rfl, by simp, rfl, inBounds, ?_⟩
    simp only [Particle.len]
    omega

/-- One call that stays within the particle. -/
theorem call (lone : pkt.Lone p) (small : p.raw.length < 2 ^ 64) {c : Use} (stays : c.Stays p) (pool : σ) :
    ∃ pkt' p', c.run pkt pool = .ok (c.value p, pkt', pool) ∧ pkt'.Lone p' ∧ c.Places p p' := by
  cases c with
  | append bytes =>
    obtain ⟨pkt', p', run, lone, places⟩ := lone.append small stays pool
    exact ⟨pkt', p', by rw [Use.run, run]; rfl, lone, places⟩
  | prepend bytes =>
    obtain ⟨pkt', p', run, lone, places⟩ := lone.prepend small stays pool
    exact ⟨pkt', p', by rw [Use.run, run]; rfl, lone, places⟩
  | pushL2 bytes =>
    obtain ⟨pkt', p', run, lone, places⟩ := lone.prepend small stays pool
    refine ⟨{ pkt' with l2 := p'.head, l2Len := bytes.length }, p', ?_,
      ⟨lone.single, lone.inBounds, lone.length⟩, places⟩
    simp [Use.run, tryPushL2, run, first, lone.single, Use.value]
  | pushL3 bytes =>
    obtain ⟨pkt', p', run, lone, places⟩ := lone.prepend small stays pool
    refine ⟨{ pkt' with l3 := p'.head, l3Len := bytes.length }, p', ?_,
      ⟨lone.single, lone.inBounds, lone.length⟩, places⟩
    simp [Use.run, tryPushL3, run, first, lone.single, Use.value]
  | pullL2 n =>
    obtain ⟨got, pkt', moved, same, after⟩ := lone.moveHead (Particle.toIsize n)
    simp only [Use.run, pullL2, first, lone.single, Except.ok_bind, moved, Use.value, ← same, Use.Places]
    by_cases all : got = Particle.toIsize n
    · simp only [all, ne_eq, not_true_eq_false, if_false, if_true, Except.ok_bind]
      exact ⟨_, _, rfl, ⟨after.single, after.inBounds, after.length⟩, rfl⟩
    · simp only [all, ne_eq, not_false_eq_true, if_true, if_false, Except.ok_bind]
      exact ⟨_, _, rfl, after, rfl⟩
  | pullL3 n =>
    obtain ⟨got, pkt', moved, same, after⟩ := lone.moveHead (Particle.toIsize n)
    simp only [Use.run, pullL3, first, lone.single, Except.ok_bind, moved, Use.value, ← same, Use.Places]
    by_cases all : got = Particle.toIsize n
    · simp only [all, ne_eq, not_true_eq_false, if_false, if_true, Except.ok_bind]
      exact ⟨_, _, rfl, ⟨after.single, after.inBounds, after.length⟩, rfl⟩
    · simp only [all, ne_eq, not_false_eq_true, if_true, if_false, Except.ok_bind]
      exact ⟨_, _, rfl, after, rfl⟩

end Lone

end Packet

theorem Use.Places.size {p p' : Particle} {c : Use} (places : c.Places p p') (inBounds : p.InBounds)
    (stays : c.Stays p) : p'.raw.length = p.raw.length := by
  have below := p.head_le_tail
  unfold Particle.InBounds at inBounds
  cases c with
  | append bytes =>
    obtain ⟨_, _, raw⟩ := places
    rw [raw, overwrite_length stays]
  | prepend bytes | pushL2 bytes | pushL3 bytes =>
    obtain ⟨_, _, raw⟩ := places
    have fits : bytes.length ≤ p.head := stays
    rw [raw, overwrite_length (by omega)]
  | pullL2 n | pullL3 n =>
    cases places
    unfold Particle.moveHead
    dsimp only
    split <;> rfl

/-- Two particles that were written alike up to their tails. -/
structure Particle.Alike (p q : Particle) : Prop where
  head : p.head = q.head
  tail : p.tail = q.tail
  size : p.raw.length = q.raw.length
  written : window p.raw 0 p.tail = window q.raw 0 q.tail

namespace Particle.Alike

variable {p q p' q' : Particle}

theorem value (alike : p.Alike q) (c : Use) : c.value p = c.value q := by
  cases c with
  | pullL2 n | pullL3 n =>
    simp only [Use.value, Particle.moveHead, alike.head, alike.tail]
    split <;> rfl
  | append bytes | prepend bytes | pushL2 bytes | pushL3 bytes => rfl

theorem stays (alike : p.Alike q) {c : Use} (stays : c.Stays p) : c.Stays q := by
  obtain ⟨head, tail, size, _⟩ := alike
  cases c with
  | append bytes =>
    simp only [Use.Stays] at stays ⊢
    omega
  | prepend bytes | pushL2 bytes | pushL3 bytes =>
    simp only [Use.Stays] at stays ⊢
    omega
  | pullL2 n | pullL3 n => trivial

theorem prepended (alike : p.Alike q) (inBounds : p.InBounds) {bytes : List UInt8} (fits : bytes.length ≤ p.head)
    (onP : p'.head = p.head - bytes.length ∧ p'.tail = p.tail ∧
      p'.raw = overwrite p.raw (p.head - bytes.length) bytes)
    (onQ : q'.head = q.head - bytes.length ∧ q'.tail = q.tail ∧
      q'.raw = overwrite q.raw (q.head - bytes.length) bytes) : p'.Alike q' := by
  obtain ⟨head, tail, size, written⟩ := alike
  obtain ⟨headP, tailP, rawP⟩ := onP
  obtain ⟨headQ, tailQ, rawQ⟩ := onQ
  have below := p.head_le_tail
  unfold Particle.InBounds at inBounds
  refine ⟨by omega, by omega, ?_, ?_⟩
  · rw [rawP, rawQ, overwrite_length (by omega), overwrite_length (by omega), size]
  · rw [rawP, rawQ, tailP, tailQ, window_overwrite_inside (by omega) (by omega),
      window_overwrite_inside (by omega) (by omega), written, head]

theorem appended (alike : p.Alike q) {bytes : List UInt8} (fits : p.tail + bytes.length ≤ p.raw.length)
    (onP : p'.head = p.head ∧ p'.tail = p.tail + bytes.length ∧ p'.raw = overwrite p.raw p.tail bytes)
    (onQ : q'.head = q.head ∧ q'.tail = q.tail + bytes.length ∧ q'.raw = overwrite q.raw q.tail bytes) :
    p'.Alike q' := by
  obtain ⟨head, tail, size, written⟩ := alike
  obtain ⟨headP, tailP, rawP⟩ := onP
  obtain ⟨headQ, tailQ, rawQ⟩ := onQ
  refine ⟨by omega, by omega, ?_, ?_⟩
  · rw [rawP, rawQ, overwrite_length (by omega), overwrite_length (by omega), size]
  · rw [rawP, rawQ, tailP, tailQ, window_overwrite_end (by omega), window_overwrite_end (by omega), written]

theorem moved (alike : p.Alike q) (mv : Int) : (p.moveHead mv).2.Alike (q.moveHead mv).2 := by
  obtain ⟨head, tail, size, written⟩ := alike
  unfold Particle.moveHead
  simp only [head, tail]
  split
  · exact ⟨head, tail, size, written⟩
  · exact ⟨rfl, rfl, size, by simpa [tail] using written⟩

/-- A call that stays keeps them alike. -/
theorem places (alike : p.Alike q) (inBounds : p.InBounds) {c : Use} (stays : c.Stays p) (onP : c.Places p p')
    (onQ : c.Places q q') : p'.Alike q' := by
  cases c with
  | append bytes => exact alike.appended stays onP onQ
  | prepend bytes | pushL2 bytes | pushL3 bytes => exact alike.prepended inBounds stays onP onQ
  | pullL2 n | pullL3 n =>
    cases onP
    cases onQ
    exact alike.moved _

/-- A reader sees the same bytes in both. -/
theorem data (alike : p.Alike q) (inP : p.InBounds) (inQ : q.InBounds) (offset : Nat) :
    p.data offset = q.data offset := by
  have content : p.content = q.content := by
    have same := congrArg (List.drop p.head) alike.written
    simp only [window_drop, Nat.zero_add] at same
    rw [Particle.content, Particle.content, same, alike.head]
  have len : p.len = q.len := by
    unfold Particle.len
    rw [alike.head, alike.tail]
  rcases Nat.lt_or_ge offset p.len with before | past
  · rw [Particle.data_some inP before, Particle.data_some inQ (len ▸ before), content, len]
  · rw [Particle.data_none past, Particle.data_none (len ▸ past)]

end Particle.Alike

namespace Packet

variable {σ τ : Type} [TryPool σ] [TryPool τ] {a b : Packet} {p q : Particle} {calls : List Use}

/-- A run within the particle returns, and leaves the pool alone. -/
theorem Lone.runs (lone : a.Lone p) (small : p.raw.length < 2 ^ 64) (pool : σ) (within : Use.Within calls a pool) :
    ∃ values a' p', Use.runs calls a pool = .ok (values, a', pool) ∧ a'.Lone p' ∧ p'.raw.length = p.raw.length := by
  induction calls generalizing a p with
  | nil => exact ⟨[], a, p, rfl, lone, rfl⟩
  | cons c rest ih =>
    obtain ⟨⟨p₀, single, stays⟩, later⟩ := within
    cases List.singleton_inj.mp (lone.single.symm.trans single)
    obtain ⟨a₁, p₁, run, lone₁, places⟩ := lone.call small stays pool
    have size := places.size lone.inBounds stays
    obtain ⟨values, a', p', runs, lone', size'⟩ := ih lone₁ (size ▸ small) (later _ _ _ run)
    refine ⟨c.value p :: values, a', p', ?_, lone', size'.trans size⟩
    simp only [Use.runs, run, runs, Except.ok_bind]

/-- The packets report the same headroom, length and data. -/
structure SameReports (a b : Packet) : Prop where
  headroom : a.headroom = b.headroom
  len : a.len = b.len
  data : ∀ offset, a.data offset = b.data offset

theorem Lone.sameReports (loneA : a.Lone p) (loneB : b.Lone q) (alike : p.Alike q) : SameReports a b where
  headroom := by rw [loneA.headroom, loneB.headroom, alike.head]
  len := by
    simp only [Packet.len, loneA.length, loneB.length, Particle.len, alike.head, alike.tail]
  data offset := by
    rw [loneA.data, loneB.data, dataLoop, dataLoop, sub64_ok.mpr ⟨Nat.zero_le _, rfl⟩]
    simp only [Except.ok_bind, alike.data loneA.inBounds loneB.inBounds]
    rfl

/-- The calls return the same values on both packets, which report the same afterwards. -/
def Agree (calls : List Use) (a : Packet) (poolA : σ) (b : Packet) (poolB : τ) : Prop :=
  ∃ values a' poolA' b' poolB', Use.runs calls a poolA = .ok (values, a', poolA') ∧
    Use.runs calls b poolB = .ok (values, b', poolB') ∧ SameReports a' b'

theorem Lone.agree (loneA : a.Lone p) (loneB : b.Lone q) (alike : p.Alike q) (small : p.raw.length < 2 ^ 64)
    (poolA : σ) (poolB : τ) (withinA : Use.Within calls a poolA) (withinB : Use.Within calls b poolB) :
    Agree calls a poolA b poolB := by
  induction calls generalizing a b p q with
  | nil => exact ⟨[], a, poolA, b, poolB, rfl, rfl, loneA.sameReports loneB alike⟩
  | cons c rest ih =>
    obtain ⟨⟨p₀, single, staysA⟩, laterA⟩ := withinA
    cases List.singleton_inj.mp (loneA.single.symm.trans single)
    obtain ⟨_, laterB⟩ := withinB
    obtain ⟨a₁, p₁, runA, loneA₁, placesA⟩ := loneA.call small staysA poolA
    obtain ⟨b₁, q₁, runB, loneB₁, placesB⟩ := loneB.call (alike.size ▸ small) (alike.stays staysA) poolB
    have size := placesA.size loneA.inBounds staysA
    obtain ⟨values, a', poolA', b', poolB', runsA, runsB, same⟩ := ih loneA₁ loneB₁
      (alike.places loneA.inBounds staysA placesA placesB) (size ▸ small) (laterA _ _ _ runA) (laterB _ _ _ runB)
    refine ⟨c.value p :: values, a', poolA', b', poolB', ?_, ?_, same⟩
    · simp only [Use.runs, runA, runsA, Except.ok_bind]
    · simp only [Use.runs, runB, runsB, Except.ok_bind, alike.value c]

/-- After calls within the particle, a prepend that exceeds the headroom returns. -/
def PrependReturns (a : Packet) (pool : σ) : Prop :=
  ∀ calls values a' pool' room bytes, Use.Within calls a pool → Use.runs calls a pool = .ok (values, a', pool') →
    a'.headroom = .ok room → room < bytes.length → bytes.length < 2 ^ 63 →
    ∃ done a'' pool'', a'.tryPrepend pool' bytes = .ok (done, a'', pool'')

/-- It does iff the pool accepts its own particle size as a headroom. -/
theorem Lone.prependReturns_iff [FinitePool σ] (lone : a.Lone p) (small : p.raw.length < 2 ^ 63) (pool : σ)
    (low : p.head + 1 < 2 ^ 63) :
    PrependReturns a pool ↔ FinitePool.accepts pool (TryPool.particleSz pool) := by
  constructor
  · intro returns
    have more : p.head < (List.replicate (p.head + 1) (0 : UInt8)).length := by simp
    have length := lone.length
    have inBounds : p.tail ≤ p.raw.length := lone.inBounds
    unfold Particle.len at length
    refine (tryPrepend_exceeds lone.single lone.inBounds more (by simp only [List.length_replicate]; omega)).mp ?_
    exact returns [] [] a pool p.head _ trivial rfl lone.headroom more (by simpa using low)
  · intro accepts calls values a' pool' room bytes within run atRoom exceeds short
    obtain ⟨_, _, p', run', lone', size⟩ := lone.runs (by omega) pool within
    rw [run] at run'
    cases run'
    rw [lone'.headroom] at atRoom
    cases atRoom
    have length := lone'.length
    have inBounds : p'.tail ≤ p'.raw.length := lone'.inBounds
    unfold Particle.len at length
    exact (tryPrepend_exceeds lone'.single lone'.inBounds exceeds (by omega)).mpr accepts

end Packet

/-- From the same headroom, packets of the two pools are interchangeable within one particle iff the
headroom is 0; and a prepend that exceeds the headroom returns in the DPDK pool iff a particle is no
larger than the headroom that pool accepts, and in the heap pool iff the headroom fits a particle. -/
theorem pools_interchangeable_iff {dpdk dpdk' : PktsDpdk} {heap heap' : PktsHeap} {headroom : Nat} {a b : Packet}
    (sized : dpdk.Sized) (same : heap.particleSz = dpdk.particleSz) (small : dpdk.particleSz < 2 ^ 63)
    (library : dpdk.dpdkPool.headroom < 2 ^ 32) (fromDpdk : dpdk.pkt headroom = .ok (some a, dpdk'))
    (fromHeap : heap.pkt headroom = (some b, heap')) :
    ((∀ calls, Use.Within calls a dpdk' → Use.Within calls b heap' → Packet.Agree calls a dpdk' b heap') ↔
        headroom = 0) ∧
      (Packet.PrependReturns a dpdk' ↔ dpdk.particleSz ≤ dpdk.dpdkPool.ownHeadroom) ∧
      (Packet.PrependReturns b heap' ↔ headroom ≤ heap.particleSz) := by
  obtain ⟨accepted, lengthA, ⟨m, chainA⟩, headroom', _, _, particleSz'⟩ := PktsDpdk.pkt_some fromDpdk
  obtain ⟨lengthB, q, chainB, headB, tailB, sizeB⟩ := PktsHeap.pkt_some fromHeap
  have loneA : a.Lone (boxPart dpdk.dpdkPool m) := ⟨chainA, Nat.zero_le _, lengthA⟩
  have sizeA : (boxPart dpdk.dpdkPool m).raw.length = dpdk.particleSz := sized m
  have loneB (fits : headroom ≤ heap.particleSz) : b.Lone q := by
    refine ⟨chainB, ?_, ?_⟩
    · rw [Particle.InBounds, tailB, sizeB]
      exact fits
    · rw [lengthB, Particle.len, headB, tailB, Nat.sub_self]
  have low : headroom + 1 < 2 ^ 63 := by
    unfold RteMempool.ownHeadroom at accepted
    omega
  refine ⟨⟨?_, ?_⟩, ?_, ⟨?_, ?_⟩⟩
  · -- the first report is made before any call
    intro agree
    obtain ⟨_, _, _, _, _, runA, runB, same⟩ := agree [] trivial trivial
    cases runA
    cases runB
    have reported := same.headroom
    rw [loneA.headroom, Packet.headroom, Packet.first, chainB, Except.ok_bind, headB] at reported
    exact (Except.ok.inj reported).symm
  · rintro rfl calls withinA withinB
    have alike : (boxPart dpdk.dpdkPool m).Alike q := by
      refine ⟨headB.symm, tailB.symm, by rw [sizeA, sizeB, same], ?_⟩
      rw [tailB, show (boxPart dpdk.dpdkPool m).tail = 0 from rfl, window_self, window_self]
    exact loneA.agree (loneB (Nat.zero_le _)) alike (by omega) dpdk' heap' withinA withinB
  · rw [loneA.prependReturns_iff (by omega) dpdk' (by decide : 0 + 1 < 2 ^ 63)]
    change dpdk'.particleSz ≤ dpdk'.dpdkPool.ownHeadroom ↔ _
    rw [particleSz', RteMempool.ownHeadroom, headroom']
    rfl
  · intro returns
    by_contra short
    obtain ⟨_, _, _, run⟩ := returns [] [] b heap' headroom (List.replicate (headroom + 1) 0) trivial rfl
      (by rw [Packet.headroom, Packet.first, chainB, Except.ok_bind, headB]) (by simp) (by simpa using low)
    -- the head lies beyond the buffer
    obtain ⟨_, loop, _⟩ := Except.bind_ok_iff.mp run
    rw [chainB] at loop
    unfold Packet.tryPrependLoop at loop
    simp [Particle.prepend, copyFromSlice, headB, sizeB, short] at loop
  · intro fits
    rw [(loneB fits).prependReturns_iff (by omega) heap' (by omega)]
    trivial

/-- A pool of one packet and two mbufs; R2's own headroom is 112 bytes. -/
def smallDpdk (particleSz : Nat) : PktsDpdk where
  dpdkPool := ⟨[0, 1], fun _ => ⟨1, 0, 0, 0, List.replicate particleSz 0⟩, fun m => 4096 * m, 128⟩
  allocFail := 0
  pkts := [⟨0, [], 0, 0, 0, 0, 0, 0, 0, zeroIp⟩]
  particleSz

theorem smallDpdk_new (particleSz : Nat) :
    PktsDpdk.new 1 2 particleSz (fun m => 4096 * m) 128 = .ok (smallDpdk particleSz) := rfl

/-- A heap pool with particles of the same size. -/
def twinHeap (particleSz : Nat) : PktsHeap where
  allocFail := 0
  pkts := [⟨11, [], 0, 0, 0, 0, 0, 0, 0, zeroIp⟩]
  particles := [⟨20, List.replicate particleSz 9, 0, 0, Particle.empty_le⟩]
  particleSz
  sized := by simp

/-- Two bytes of headroom are asked for: the DPDK pool gives none, and one byte prepended to its
packet stops it. -/
theorem pools_differ : ∃ a dpdk' b heap', (smallDpdk 2048).pkt 2 = .ok (some a, dpdk') ∧
    (twinHeap 2048).pkt 2 = (some b, heap') ∧ a.headroom = .ok 0 ∧ b.headroom = .ok 2 ∧
    ¬∃ done a' dpdk'', a.tryPrepend dpdk' [1] = .ok (done, a', dpdk'') := by
  refine ⟨_, _, _, _, rfl, rfl, rfl, rfl, fun returns => ?_⟩
  have accepted : 2048 ≤ 112 := (Packet.tryPrepend_exceeds rfl (Nat.zero_le _) (by decide) (by decide)).mp returns
  exact absurd accepted (by decide)

theorem Use.Within.cons {σ : Type} [TryPool σ] {c : Use} {rest : List Use} {pkt pkt' : Packet} {pool pool' : σ}
    {value : Value} {p : Particle} (single : pkt.particle = [p]) (stays : c.Stays p)
    (run : c.run pkt pool = .ok (value, pkt', pool')) (within : Use.Within rest pkt' pool') :
    Use.Within (c :: rest) pkt pool := by
  refine ⟨⟨p, single, stays⟩, fun value' pkt'' pool'' run' => ?_⟩
  cases run.symm.trans run'
  exact within

def fourUses : List Use := [.append [1, 2, 3], .pullL2 2, .prepend [7], .pushL2 [8]]

/-- Four calls on packets without headroom. -/
theorem pools_interchangeable_four : ∃ a dpdk' b heap', (smallDpdk 4).pkt 0 = .ok (some a, dpdk') ∧
    (twinHeap 4).pkt 0 = (some b, heap') ∧ Packet.Agree fourUses a dpdk' b heap' ∧
    Packet.PrependReturns a dpdk' := by
  obtain ⟨agree, ofDpdk, _⟩ := @pools_interchangeable_iff (smallDpdk 4) _ (twinHeap 4) _ 0 _ _
    (PktsDpdk.new_sized (smallDpdk_new 4)) rfl (by decide) (by decide) rfl rfl
  refine ⟨_, _, _, _, rfl, rfl, agree.mpr rfl fourUses ?_ ?_, ofDpdk.mpr (by decide)⟩
  · exact .cons rfl (Nat.le_of_ble_eq_true rfl) rfl (.cons rfl trivial rfl (.cons rfl (Nat.le_of_ble_eq_true rfl) rfl
      (.cons rfl (Nat.le_of_ble_eq_true rfl) rfl trivial)))
  · exact .cons rfl (Nat.le_of_ble_eq_true rfl) rfl (.cons rfl trivial rfl (.cons rfl (Nat.le_of_ble_eq_true rfl) rfl
      (.cons rfl (Nat.le_of_ble_eq_true rfl) rfl trivial)))

end R2
