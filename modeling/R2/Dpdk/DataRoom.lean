import R2.Dpdk.Interchange

namespace R2

theorem copyFromSlice_ok {raw raw' bytes : List UInt8} {lo hi : Nat} :
    copyFromSlice raw lo hi bytes = .ok raw' ↔
      (lo ≤ hi ∧ hi ≤ raw.length ∧ bytes.length = hi - lo) ∧ raw' = overwrite raw lo bytes := by
  unfold copyFromSlice
  split
  · rename_i fits
    simp only [fits, true_and, Except.ok.injEq, eq_comm]
  · rename_i unfit
    simp only [unfit, false_and, reduceCtorEq]

/-- A write between `lo` and `hi` leaves everything else. -/
theorem copyFromSlice_outside {raw raw' bytes : List UInt8} {lo hi i : Nat}
    (run : copyFromSlice raw lo hi bytes = .ok raw') (outside : i < lo ∨ hi ≤ i) : raw'[i]? = raw[i]? := by
  obtain ⟨⟨below, above, exact⟩, rfl⟩ := copyFromSlice_ok.mp run
  rw [getElem?_overwrite (by omega)]
  rcases outside with before | after
  · rw [if_pos before]
  · rw [if_neg (by omega), if_neg (by omega)]

theorem copyFromSlice_length {raw raw' bytes : List UInt8} {lo hi : Nat}
    (run : copyFromSlice raw lo hi bytes = .ok raw') : raw'.length = raw.length := by
  obtain ⟨⟨below, above, exact⟩, rfl⟩ := copyFromSlice_ok.mp run
  exact overwrite_length (by omega)

/-- The particle holds more data than before, and was written nowhere else. -/
structure Particle.Widens (p p' : Particle) : Prop where
  ptr : p'.ptr = p.ptr
  head : p'.head ≤ p.head
  tail : p.tail ≤ p'.tail
  size : p'.raw.length = p.raw.length
  outside : ∀ i, i < p'.head ∨ p'.tail ≤ i → p'.raw[i]? = p.raw[i]?

namespace Particle

variable {p p' : Particle} {bytes : List UInt8} {n : Nat}

theorem Widens.refl (p : Particle) : p.Widens p := ⟨rfl, le_rfl, le_rfl, rfl, fun _ _ => rfl⟩

theorem Widens.trans {q : Particle} (first : p.Widens q) (second : q.Widens p') : p.Widens p' where
  ptr := second.ptr.trans first.ptr
  head := le_trans second.head first.head
  tail := le_trans first.tail second.tail
  size := second.size.trans first.size
  outside i outside := by
    have head := second.head
    have tail := second.tail
    rw [second.outside i outside, first.outside i (by omega)]

theorem prepend_widens (run : p.prepend bytes = .ok (n, p')) : p.Widens p' ∧ p'.tail = p.tail := by
  have below := p.head_le_tail
  unfold prepend at run
  dsimp only at run
  split at run
  · obtain ⟨raw, written, run⟩ := Except.bind_ok_iff.mp run
    cases run
    refine ⟨⟨rfl, Nat.zero_le _, le_rfl, copyFromSlice_length written, fun i outside => ?_⟩, rfl⟩
    dsimp only at outside
    exact copyFromSlice_outside written (by omega)
  · obtain ⟨raw, written, run⟩ := Except.bind_ok_iff.mp run
    cases run
    refine ⟨⟨rfl, Nat.sub_le _ _, le_rfl, copyFromSlice_length written, fun i outside => ?_⟩, rfl⟩
    dsimp only at outside
    exact copyFromSlice_outside written (by omega)

theorem append_widens (run : p.append bytes = .ok (n, p')) :
    p.Widens p' ∧ p'.head = p.head ∧ p'.tail = p.tail + n ∧ n = min (p.raw.length - p.tail) bytes.length ∧
      p'.InBounds := by
  have below := p.head_le_tail
  unfold append at run
  obtain ⟨room, inBounds, run⟩ := Except.bind_ok_iff.mp run
  obtain ⟨fits, rfl⟩ := sub64_ok.mp inBounds
  obtain ⟨raw, written, run⟩ := Except.bind_ok_iff.mp run
  cases run
  have size := copyFromSlice_length written
  refine ⟨⟨rfl, le_rfl, Nat.le_add_right _ _, size, fun i outside => ?_⟩, rfl, rfl, rfl, ?_⟩
  · dsimp only at outside
    exact copyFromSlice_outside written (by omega)
  · simp only [InBounds, size]
    omega

theorem moveTail_spec (mv : Int) : (p.moveTail mv).2.ptr = p.ptr ∧ (p.moveTail mv).2.raw = p.raw ∧
    (p.moveTail mv).2.head = p.head ∧
    ((p.moveTail mv).2.tail = p.tail ∧ (p.tail + mv < p.head ∨ p.raw.length < p.tail + mv) ∨
      p.tail + mv ≤ p.raw.length ∧ ((p.moveTail mv).2.tail : Int) = p.tail + mv) := by
  unfold moveTail
  dsimp only
  split
  · rename_i bad
    exact ⟨rfl, rfl, rfl, .inl ⟨rfl, bad⟩⟩
  · exact ⟨rfl, rfl, rfl, .inr ⟨by omega, by dsimp only; omega⟩⟩

end Particle

namespace PktsDpdk

/-- The `buf_sz` of `dpdk_buffer_init`: `particle_sz as u16`. -/
def bufSz (pool : PktsDpdk) : Nat := pool.particleSz % 2 ^ 16

/-- What `mbuf_to_raw` leaves of the data room. -/
def room (pool : PktsDpdk) : Nat := pool.bufSz - headroomSteal

end PktsDpdk

/-- `mbuf_to_raw`: the address of raw index 0. -/
def mbufToRaw (mp : RteMempool) (m : Mbuf) : Nat := mp.bufAddr m + headroomSteal

/-- Raw index `i` of mbuf `m` is behind the stolen words and in the data room. -/
def PktsDpdk.InRoom (pool : PktsDpdk) (m : Mbuf) (i : Nat) : Prop :=
  headroomSteal ≤ mbufToRaw pool.dpdkPool m + i - pool.dpdkPool.bufAddr m ∧
    mbufToRaw pool.dpdkPool m + i - pool.dpdkPool.bufAddr m < pool.bufSz

theorem PktsDpdk.inRoom_iff {pool : PktsDpdk} {m : Mbuf} {i : Nat} : pool.InRoom m i ↔ i < pool.room := by
  unfold InRoom mbufToRaw room
  omega

/-- The calls that write to a packet or move its tail. -/
inductive Edit
  | append (bytes : List UInt8)
  | prepend (bytes : List UInt8)
  | moveTail (mv : Int)
  | headMut (offset : Nat) (bytes : List UInt8)

namespace Edit

def run (pkt : Packet) (pool : PktsDpdk) : Edit → Outcome (Packet × PktsDpdk)
  | append bytes => do
    let (_, pkt, pool) ← pkt.tryAppend pool bytes
    .ok (pkt, pool)
  | prepend bytes => do
    let (_, pkt, pool) ← pkt.tryPrepend pool bytes
    .ok (pkt, pool)
  | moveTail mv => do
    let (_, pkt) ← pkt.moveTail mv
    .ok (pkt, pool)
  | headMut offset bytes => do
    let pkt ← pkt.headMut fun raw => copyFromSlice raw offset (offset + bytes.length) bytes
    .ok (pkt, pool)

/-- The chain that a call leaves, also where its bytes cannot be counted. -/
def leaves (pkt : Packet) (pool : PktsDpdk) : Edit → Outcome (List Particle)
  | append bytes => do
    let (_, chain, _) ← Packet.tryAppendLoop bytes (bytes.length + TryPool.left pool + 2) 0 pkt.particle pool
    .ok chain
  | prepend bytes => do
    let (_, chain, _) ← Packet.tryPrependLoop bytes (TryPool.left pool + 2) bytes.length pkt.particle pool
    .ok chain
  | moveTail mv => do
    let (_, pkt) ← pkt.moveTail mv
    .ok pkt.particle
  | headMut offset bytes => do
    let pkt ← pkt.headMut fun raw => copyFromSlice raw offset (offset + bytes.length) bytes
    .ok pkt.particle

end Edit

/-- Raw index `i` of mbuf `m` holds data of the chain. -/
def Shows (chain : List Particle) (m : Mbuf) (i : Nat) : Prop :=
  ∃ p ∈ chain, mbufOf p = m ∧ p.head ≤ i ∧ i < p.tail

namespace Edit

/-- What a call writes of the first particle, whether it returns or not. -/
def Writes (first : Particle) (i : Nat) : Edit → Prop
  | append _ | moveTail _ => False
  | prepend bytes => first.head - bytes.length ≤ i ∧ i < first.head
  | headMut offset bytes => offset ≤ i ∧ i < offset + bytes.length ∧ offset + bytes.length ≤ first.raw.length

/-- A call touches what it writes and what is data after it. -/
def Touches (pkt : Packet) (pool : PktsDpdk) (m : Mbuf) (i : Nat) (e : Edit) : Prop :=
  (∃ chain, e.leaves pkt pool = .ok chain ∧ Shows chain m i) ∨
    ∃ p ∈ pkt.particle.head?, mbufOf p = m ∧ e.Writes p i

/-- What the call fills of a particle ends in the data room. -/
def Meets (pkt : Packet) (pool : PktsDpdk) : Edit → Prop
  | append bytes => ∀ p ∈ pkt.particle.getLast?, min p.raw.length (p.tail + bytes.length) ≤ pool.room
  | prepend _ => True
  | moveTail mv => ∀ p ∈ pkt.particle.getLast?, p.tail + mv ≤ p.raw.length → p.tail + mv ≤ pool.room
  | headMut offset bytes => ∀ p ∈ pkt.particle.head?,
      bytes ≠ [] → offset + bytes.length ≤ p.raw.length → offset + bytes.length ≤ pool.room

/-- Every index that a run touches is in the data room. -/
def Safe : List Edit → Packet → PktsDpdk → Prop
  | [], _, _ => True
  | e :: rest, pkt, pool => (∀ m i, e.Touches pkt pool m i → pool.InRoom m i) ∧
      ∀ pkt' pool', e.run pkt pool = .ok (pkt', pool') → Safe rest pkt' pool'

def MeetsAll : List Edit → Packet → PktsDpdk → Prop
  | [], _, _ => True
  | e :: rest, pkt, pool => e.Meets pkt pool ∧
      ∀ pkt' pool', e.run pkt pool = .ok (pkt', pool') → MeetsAll rest pkt' pool'

end Edit

/-- Particles as they were or new from the pool, with more data. -/
def Grown (pool : PktsDpdk) (chain chain' : List Particle) : Prop :=
  ∀ p' ∈ chain', ∃ p, (p ∈ chain ∨ p = boxPart pool.dpdkPool p.ptr) ∧ p.Widens p'

/-- The chain is made of the pool's particles, filled up to `limit` at most. -/
structure FilledTo (limit : Nat) (pool : PktsDpdk) (chain : List Particle) : Prop where
  sized : pool.Sized
  chained : chain ≠ []
  size : ∀ p ∈ chain, p.raw.length = pool.particleSz
  tail : ∀ p ∈ chain, p.tail ≤ limit

namespace PktsDpdk

variable {pool pool' : PktsDpdk} {headroom : Nat} {q : Option Particle}

theorem particle_fresh (run : pool.particle headroom = .ok (q, pool')) :
    pool'.dpdkPool.mbuf = pool.dpdkPool.mbuf ∧ pool'.particleSz = pool.particleSz ∧
      ∀ p ∈ q, p = boxPart pool.dpdkPool p.ptr := by
  by_cases accepted : headroom ≤ pool.dpdkPool.ownHeadroom
  · obtain ⟨q', free, allocFail, run', supply⟩ := particle_ok accepted
    rw [run] at run'
    cases run'
    refine ⟨rfl, rfl, fun p member => ?_⟩
    obtain ⟨_, m, rfl⟩ := supply p member
    rfl
  · rw [particle_panics accepted] at run
    cases run

end PktsDpdk

section Chains

variable {pool pool' : PktsDpdk} {chain chain' : List Particle} {bytes : List UInt8} {fuel l offset limit : Nat}
  {done : Bool}

theorem Grown.refl (pool : PktsDpdk) (chain : List Particle) : Grown pool chain chain :=
  fun p member => ⟨p, .inl member, .refl p⟩

/-- What is in place of a particle of a grown chain. -/
theorem Grown.replace {front back : List Particle} {p p' : Particle} (grown : Grown pool chain (front ++ p :: back))
    (widens : p.Widens p') : Grown pool chain (front ++ p' :: back) := by
  intro r member
  simp only [List.mem_append, List.mem_cons] at member
  rcases member with before | rfl | after
  · exact grown r (by simp [before])
  · obtain ⟨origin, known, first⟩ := grown p (by simp)
    exact ⟨origin, known, first.trans widens⟩
  · exact grown r (by simp [after])

theorem Grown.fresh {added : List Particle} (fresh : ∀ p ∈ added, p = boxPart pool.dpdkPool p.ptr) :
    Grown pool chain added :=
  fun p member => ⟨p, .inr (fresh p member), .refl p⟩

theorem Grown.append {added : List Particle} (grown : Grown pool chain chain') (more : Grown pool chain added) :
    Grown pool chain (chain' ++ added) := by
  intro p member
  rcases List.mem_append.mp member with old | new
  · exact grown p old
  · exact more p new

theorem tryPrependLoop_grown
    (run : Packet.tryPrependLoop bytes fuel l chain pool = .ok (done, chain', pool')) : Grown pool chain chain' := by
  have kept : pool'.dpdkPool.mbuf = pool.dpdkPool.mbuf ∧ Grown pool chain chain' := by
    refine @Packet.tryPrependLoop_rule _ _ _ _ _ _ _ _ _ _
      (fun c P => P.dpdkPool.mbuf = pool.dpdkPool.mbuf ∧ Grown pool chain c) ?_ ?_ ?_ run
    · rintro p rest P bytes n p' ⟨same, grown⟩ written
      have first : Grown pool chain ([] ++ p :: rest) := grown
      exact ⟨same, first.replace (Particle.prepend_widens written).1⟩
    · rintro c P headroom q P' ⟨same, grown⟩ given
      obtain ⟨kept, -, fresh⟩ := PktsDpdk.particle_fresh given
      refine ⟨kept.trans same, Grown.append (Grown.fresh fun p member => ?_) grown⟩
      rw [fresh p (Option.mem_toList.mp member), boxPart, boxPart, same]
    · exact ⟨rfl, .refl pool chain⟩
  exact kept.2

theorem tryAppendLoop_grown
    (run : Packet.tryAppendLoop bytes fuel offset chain pool = .ok (done, chain', pool')) :
    Grown pool chain chain' := by
  have kept : pool'.dpdkPool.mbuf = pool.dpdkPool.mbuf ∧ Grown pool chain chain' := by
    refine @Packet.tryAppendLoop_rule _ _ _ _ _ _ _ _ _ _
      (fun c P => P.dpdkPool.mbuf = pool.dpdkPool.mbuf ∧ Grown pool chain c) ?_ ?_ ?_ run
    · rintro c P bytes n c' ⟨same, grown⟩ written
      obtain ⟨front, p, p', rfl, at_last, rfl⟩ := Packet.withLast_ok written
      exact ⟨same, grown.replace (Particle.append_widens at_last).1⟩
    · rintro c P q P' ⟨same, grown⟩ given
      obtain ⟨kept, -, fresh⟩ := PktsDpdk.particle_fresh given
      refine ⟨kept.trans same, grown.append (Grown.fresh fun p member => ?_)⟩
      rw [fresh p (Option.mem_toList.mp member), boxPart, boxPart, same]
    · exact ⟨rfl, .refl pool chain⟩
  exact kept.2

theorem FilledTo.replace {front back : List Particle} {p p' : Particle}
    (filled : FilledTo limit pool (front ++ p :: back)) (same : p'.raw.length = p.raw.length)
    (within : p'.tail ≤ limit) : FilledTo limit pool (front ++ p' :: back) where
  sized := filled.sized
  chained := by simp
  size r member := by
    simp only [List.mem_append, List.mem_cons] at member
    rcases member with before | rfl | after
    · exact filled.size r (by simp [before])
    · exact same.trans (filled.size p (by simp))
    · exact filled.size r (by simp [after])
  tail r member := by
    simp only [List.mem_append, List.mem_cons] at member
    rcases member with before | rfl | after
    · exact filled.tail r (by simp [before])
    · exact within
    · exact filled.tail r (by simp [after])

/-- Particles that the pool gives are empty. -/
theorem FilledTo.given {q : Option Particle} {headroom : Nat} (filled : FilledTo limit pool chain)
    (given : pool.particle headroom = .ok (q, pool')) (members : ∀ p ∈ chain', p ∈ q ∨ p ∈ chain)
    (chained : chain' ≠ []) : FilledTo limit pool' chain' := by
  obtain ⟨kept, sizes, fresh⟩ := PktsDpdk.particle_fresh given
  refine ⟨fun m => ?_, chained, fun p member => ?_, fun p member => ?_⟩
  · rw [kept, sizes]
    exact filled.sized m
  · rw [sizes]
    rcases members p member with new | old
    · rw [fresh p new]
      exact filled.sized p.ptr
    · exact filled.size p old
  · rcases members p member with new | old
    · rw [fresh p new]
      exact Nat.zero_le _
    · exact filled.tail p old

theorem FilledTo.prependLoop (filled : FilledTo limit pool chain)
    (run : Packet.tryPrependLoop bytes fuel l chain pool = .ok (done, chain', pool')) :
    FilledTo limit pool' chain' ∧ pool'.particleSz = pool.particleSz := by
  refine @Packet.tryPrependLoop_rule _ _ _ _ _ _ _ _ _ _
    (fun c P => FilledTo limit P c ∧ P.particleSz = pool.particleSz) ?_ ?_ ?_ run
  · rintro p rest P bytes n p' ⟨filled, size⟩ written
    obtain ⟨widens, tail⟩ := Particle.prepend_widens written
    have first : FilledTo limit P ([] ++ p :: rest) := filled
    exact ⟨first.replace widens.size (tail ▸ filled.tail p (by simp)), size⟩
  · rintro c P headroom q P' ⟨filled, size⟩ given
    refine ⟨filled.given given (fun p member => ?_) (by simp [filled.chained]), ?_⟩
    · simpa using member
    · exact (PktsDpdk.particle_fresh given).2.1.trans size
  · exact ⟨filled, rfl⟩

/-- An append fills particles to their end at most. -/
theorem FilledTo.appendLoop (filled : FilledTo pool.particleSz pool chain)
    (run : Packet.tryAppendLoop bytes fuel offset chain pool = .ok (done, chain', pool')) :
    FilledTo pool.particleSz pool' chain' ∧ pool'.particleSz = pool.particleSz := by
  refine @Packet.tryAppendLoop_rule _ _ _ _ _ _ _ _ _ _
    (fun c P => FilledTo pool.particleSz P c ∧ P.particleSz = pool.particleSz) ?_ ?_ ?_ run
  · rintro c P bytes n c' ⟨filled, size⟩ written
    obtain ⟨front, p, p', rfl, at_last, rfl⟩ := Packet.withLast_ok written
    obtain ⟨widens, _, _, _, inBounds⟩ := Particle.append_widens at_last
    refine ⟨filled.replace widens.size ?_, size⟩
    rw [← size, ← filled.size p (by simp), ← widens.size]
    exact inBounds
  · rintro c P q P' ⟨filled, size⟩ given
    refine ⟨filled.given given (fun p member => ?_) (by simp [filled.chained]), ?_⟩
    · simpa [or_comm] using member
    · exact (PktsDpdk.particle_fresh given).2.1.trans size
  · exact ⟨filled, rfl⟩

theorem PktsDpdk.room_le (pool : PktsDpdk) : pool.room ≤ pool.particleSz := by
  unfold room bufSz
  omega

theorem PktsDpdk.room_lt (some : pool.particleSz ≠ 0) : pool.room < pool.particleSz := by
  unfold room bufSz headroomSteal
  omega

/-- An append that ends in the data room leaves the rest of it empty. -/
theorem FilledTo.append (filled : FilledTo pool.room pool chain)
    (meets : ∀ p ∈ chain.getLast?, min p.raw.length (p.tail + bytes.length) ≤ pool.room)
    (run : Packet.tryAppendLoop bytes (fuel + 2) 0 chain pool = .ok (done, chain', pool')) :
    FilledTo pool.room pool' chain' ∧ pool'.particleSz = pool.particleSz := by
  by_cases none : pool.particleSz = 0
  · have room : pool.room = pool.particleSz := by
      have := pool.room_le
      omega
    rw [room] at filled ⊢
    exact filled.appendLoop run
  · obtain ⟨front, p, rfl⟩ := chain.eq_nil_or_concat'.resolve_left filled.chained
    have size := filled.size p (by simp)
    have short := pool.room_lt none
    have ends := meets p (by simp)
    have fits : p.tail + bytes.length ≤ p.raw.length := by omega
    obtain ⟨p', loop, _, _, tail, raw⟩ := Packet.tryAppendLoop_fits front fuel fits pool
    rw [run] at loop
    cases loop
    refine ⟨filled.replace ?_ (by omega), rfl⟩
    rw [raw, overwrite_length (by omega)]

/-- An append that does not fills the particle past it. -/
theorem FilledTo.overfills {front : List Particle} {p : Particle} (filled : FilledTo limit pool (front ++ [p]))
    (beyond : limit < min p.raw.length (p.tail + bytes.length))
    (run : Packet.tryAppendLoop bytes fuel 0 (front ++ [p]) pool = .ok (done, chain', pool')) :
    ∃ p' ∈ chain', p'.head ≤ limit ∧ limit < p'.tail := by
  have within := filled.tail p (by simp)
  cases fuel with
  | zero => cases run
  | succ fuel =>
    unfold Packet.tryAppendLoop at run
    rw [if_neg (by omega)] at run
    obtain ⟨⟨n, c⟩, written, run⟩ := Except.bind_ok_iff.mp run
    obtain ⟨front', q, q', shape, at_last, rfl⟩ := Packet.withLast_ok written
    obtain ⟨rfl, same⟩ := List.append_inj' shape rfl
    cases same
    obtain ⟨_, head, tail, count, _⟩ := Particle.append_widens at_last
    have below := p.head_le_tail
    rw [window_length le_rfl] at count
    dsimp only at run
    rw [if_neg (by omega)] at run
    refine @Packet.tryAppendLoop_rule _ _ _ _ _ _ _ _ _ _ (fun c _ => ∃ p' ∈ c, p'.head ≤ limit ∧ limit < p'.tail)
      ?_ ?_ ?_ run
    · rintro c P bytes n c' ⟨p', member, low, high⟩ written
      obtain ⟨front, r, r', rfl, at_last, rfl⟩ := Packet.withLast_ok written
      obtain ⟨widens, head, _⟩ := Particle.append_widens at_last
      rcases List.mem_append.mp member with before | last
      · exact ⟨p', List.mem_append_left _ before, low, high⟩
      · cases List.mem_singleton.mp last
        exact ⟨r', by simp, head ▸ low, lt_of_lt_of_le high widens.tail⟩
    · rintro c P q P' ⟨p', member, low, high⟩ given
      exact ⟨p', List.mem_append_left _ member, low, high⟩
    · exact ⟨q', by simp, by omega, by omega⟩

end Chains

section Calls

variable {pool pool' : PktsDpdk} {pkt pkt' : Packet} {e : Edit}

theorem FilledTo.moveTail {limit : Nat} {mv moved : Int} (filled : FilledTo limit pool pkt.particle)
    (meets : ∀ p ∈ pkt.particle.getLast?, p.tail + mv ≤ p.raw.length → p.tail + mv ≤ limit)
    (run : pkt.moveTail mv = .ok (moved, pkt')) : FilledTo limit pool pkt'.particle := by
  unfold Packet.moveTail at run
  obtain ⟨⟨got, chain⟩, placed, run⟩ := Except.bind_ok_iff.mp run
  have kept : FilledTo limit pool chain := by
    obtain ⟨front, p, p', shape, at_last, rfl⟩ := Packet.withLast_ok placed
    have ends := meets p (by simp [shape])
    have within := filled.tail p (by simp [shape])
    obtain ⟨_, raw, _, tail⟩ := p.moveTail_spec mv
    obtain rfl : p' = (p.moveTail mv).2 := (congrArg Prod.snd (Except.ok.inj at_last)).symm
    rw [shape] at filled
    exact filled.replace (congrArg List.length raw) (by omega)
  dsimp only at run
  split at run <;> cases run <;> exact kept

theorem FilledTo.headMut {limit offset : Nat} {bytes : List UInt8} (filled : FilledTo limit pool pkt.particle)
    (run : pkt.headMut (fun raw => copyFromSlice raw offset (offset + bytes.length) bytes) = .ok pkt') :
    FilledTo limit pool pkt'.particle := by
  unfold Packet.headMut at run
  cases chain : pkt.particle with
  | nil => exact absurd chain filled.chained
  | cons p rest =>
    rw [chain] at run filled
    obtain ⟨raw, written, run⟩ := Except.bind_ok_iff.mp run
    cases run
    have first : FilledTo limit pool ([] ++ p :: rest) := filled
    exact first.replace (copyFromSlice_length written) (filled.tail p (by simp))

/-- A call that meets its condition keeps the rest of the data room empty. -/
theorem FilledTo.step (filled : FilledTo pool.room pool pkt.particle) (meets : e.Meets pkt pool)
    (run : e.run pkt pool = .ok (pkt', pool')) :
    FilledTo pool'.room pool' pkt'.particle ∧ pool'.particleSz = pool.particleSz := by
  have kept : FilledTo pool.room pool' pkt'.particle ∧ pool'.particleSz = pool.particleSz := by
    cases e with
    | append bytes =>
      obtain ⟨⟨done, after, final⟩, call, run⟩ := Except.bind_ok_iff.mp run
      cases run
      exact filled.append meets (Packet.tryAppend_loop call)
    | prepend bytes =>
      obtain ⟨⟨done, after, final⟩, call, run⟩ := Except.bind_ok_iff.mp run
      cases run
      exact filled.prependLoop (Packet.tryPrepend_loop call)
    | moveTail mv =>
      obtain ⟨⟨moved, after⟩, call, run⟩ := Except.bind_ok_iff.mp run
      cases run
      exact ⟨filled.moveTail meets call, rfl⟩
    | headMut offset bytes =>
      obtain ⟨after, call, run⟩ := Except.bind_ok_iff.mp run
      cases run
      exact ⟨filled.headMut call, rfl⟩
  have room : pool'.room = pool.room := by
    unfold PktsDpdk.room PktsDpdk.bufSz
    rw [kept.2]
  exact ⟨room ▸ kept.1, kept.2⟩

theorem FilledTo.leaves {chain : List Particle} (filled : FilledTo pool.room pool pkt.particle)
    (meets : e.Meets pkt pool) (run : e.leaves pkt pool = .ok chain) : ∀ p ∈ chain, p.tail ≤ pool.room := by
  cases e with
  | append bytes =>
    obtain ⟨⟨done, after, final⟩, loop, run⟩ := Except.bind_ok_iff.mp run
    cases run
    exact (filled.append meets loop).1.tail
  | prepend bytes =>
    obtain ⟨⟨done, after, final⟩, loop, run⟩ := Except.bind_ok_iff.mp run
    cases run
    exact (filled.prependLoop loop).1.tail
  | moveTail mv =>
    obtain ⟨⟨moved, after⟩, call, run⟩ := Except.bind_ok_iff.mp run
    cases run
    exact (filled.moveTail meets call).tail
  | headMut offset bytes =>
    obtain ⟨after, call, run⟩ := Except.bind_ok_iff.mp run
    cases run
    exact (filled.headMut call).tail

/-- Each index a call touches is in the data room iff the call meets its condition. -/
theorem FilledTo.touches_iff (filled : FilledTo pool.room pool pkt.particle) :
    (∀ m i, e.Touches pkt pool m i → pool.InRoom m i) ↔ e.Meets pkt pool := by
  simp only [PktsDpdk.inRoom_iff]
  constructor
  · intro safe
    cases e with
    | append bytes =>
      intro p last
      by_contra beyond
      obtain ⟨front, chain⟩ := List.getLast?_eq_some_iff.mp last
      have inBounds : ∀ q ∈ pkt.particle, q.InBounds := fun q member => by
        rw [Particle.InBounds, filled.size q member]
        exact le_trans (filled.tail q member) pool.room_le
      obtain ⟨done, chain', pool', loop⟩ := Packet.tryAppendLoop_returns filled.chained inBounds (Nat.zero_le _)
        (Nat.zero_le _ : FinitePool.accepts pool 0)
        (show bytes.length - 0 + TryPool.left pool < bytes.length + TryPool.left pool + 2 by omega)
      have left : (Edit.append bytes).leaves pkt pool = .ok chain' := by
        simp only [Edit.leaves, loop, Except.ok_bind]
      rw [chain] at filled loop
      obtain ⟨p', member, low, high⟩ := filled.overfills (Nat.lt_of_not_le beyond) loop
      exact absurd (safe _ pool.room (.inl ⟨chain', left, p', member, rfl, low, high⟩)) (Nat.lt_irrefl _)
    | prepend bytes => trivial
    | moveTail mv =>
      intro p last fits
      by_contra beyond
      obtain ⟨front, chain⟩ := List.getLast?_eq_some_iff.mp last
      have below := p.head_le_tail
      have within := filled.tail p (by simp [chain])
      obtain ⟨_, _, head, tail⟩ := p.moveTail_spec mv
      have placed : Packet.withLast (fun p => .ok (p.moveTail mv)) (front ++ [p]) =
          .ok ((p.moveTail mv).1, front ++ [(p.moveTail mv).2]) := Packet.withLast_concat rfl
      have left : (Edit.moveTail mv).leaves pkt pool = .ok (front ++ [(p.moveTail mv).2]) := by
        simp only [Edit.leaves, Packet.moveTail, chain, placed, Except.ok_bind]
        split <;> rfl
      have shown : Shows (front ++ [(p.moveTail mv).2]) (mbufOf (p.moveTail mv).2) pool.room :=
        ⟨(p.moveTail mv).2, by simp, rfl, by omega, by omega⟩
      exact absurd (safe _ pool.room (.inl ⟨_, left, shown⟩)) (Nat.lt_irrefl _)
    | headMut offset bytes =>
      intro p first some fits
      by_contra beyond
      have written := List.length_pos_of_ne_nil some
      have inside := safe _ (offset + bytes.length - 1) (.inr ⟨p, first, rfl, by omega, by omega, fits⟩)
      omega
  · rintro meets m i (⟨chain, left, p, member, -, -, high⟩ | ⟨p, first, -, writes⟩)
    · exact lt_of_lt_of_le high (filled.leaves meets left p member)
    · have below := p.head_le_tail
      have within := filled.tail p (List.mem_of_head? first)
      cases e with
      | append bytes => exact absurd writes id
      | moveTail mv => exact absurd writes id
      | prepend bytes =>
        obtain ⟨_, high⟩ := writes
        omega
      | headMut offset bytes =>
        obtain ⟨low, high, fits⟩ := writes
        have some : bytes ≠ [] := by
          rintro rfl
          simp only [List.length_nil] at high
          omega
        have ends := meets p first some fits
        omega

/-- A call leaves every byte that it does not touch. -/
theorem Edit.untouched {chain : List Particle} {p' : Particle} {i : Nat} (left : e.leaves pkt pool = .ok chain)
    (member : p' ∈ chain) (apart : ¬e.Touches pkt pool (mbufOf p') i) :
    ∃ p, (p ∈ pkt.particle ∨ p = boxPart pool.dpdkPool p.ptr) ∧ mbufOf p = mbufOf p' ∧ p'.raw[i]? = p.raw[i]? := by
  have outside : ¬(p'.head ≤ i ∧ i < p'.tail) := fun inside =>
    apart (.inl ⟨chain, left, p', member, rfl, inside⟩)
  have widened (grown : Grown pool pkt.particle chain) : ∃ p, (p ∈ pkt.particle ∨ p = boxPart pool.dpdkPool p.ptr) ∧
      mbufOf p = mbufOf p' ∧ p'.raw[i]? = p.raw[i]? := by
    obtain ⟨p, known, widens⟩ := grown p' member
    exact ⟨p, known, widens.ptr.symm, widens.outside i (by omega)⟩
  cases e with
  | append bytes =>
    obtain ⟨⟨done, after, final⟩, loop, left⟩ := Except.bind_ok_iff.mp left
    cases left
    exact widened (tryAppendLoop_grown loop)
  | prepend bytes =>
    obtain ⟨⟨done, after, final⟩, loop, left⟩ := Except.bind_ok_iff.mp left
    cases left
    exact widened (tryPrependLoop_grown loop)
  | moveTail mv =>
    obtain ⟨⟨moved, after⟩, call, left⟩ := Except.bind_ok_iff.mp left
    cases left
    obtain ⟨⟨got, c⟩, placed, call⟩ := Except.bind_ok_iff.mp call
    have chain : after.particle = c := by
      dsimp only at call
      split at call <;> cases call <;> rfl
    obtain ⟨front, p, q, shape, at_last, rfl⟩ := Packet.withLast_ok placed
    rw [chain] at member
    rcases List.mem_append.mp member with before | last
    · exact ⟨p', .inl (by simp [shape, before]), rfl, rfl⟩
    · obtain rfl : q = (p.moveTail mv).2 := (congrArg Prod.snd (Except.ok.inj at_last)).symm
      obtain ⟨ptr, raw, _⟩ := p.moveTail_spec mv
      rw [List.mem_singleton.mp last, raw]
      exact ⟨p, .inl (by simp [shape]), ptr.symm, rfl⟩
  | headMut offset bytes =>
    obtain ⟨after, call, left⟩ := Except.bind_ok_iff.mp left
    cases left
    unfold Packet.headMut at call
    cases shape : pkt.particle with
    | nil =>
      rw [shape] at call
      cases call
    | cons p rest =>
      rw [shape] at call
      obtain ⟨raw, written, call⟩ := Except.bind_ok_iff.mp call
      cases call
      rcases List.mem_cons.mp member with rfl | later
      · refine ⟨p, .inl (List.mem_cons_self ..), rfl, copyFromSlice_outside written ?_⟩
        by_contra inside
        refine apart (.inr ⟨p, by simp [shape], rfl, ?_⟩)
        obtain ⟨⟨_, fits, _⟩, _⟩ := copyFromSlice_ok.mp written
        exact ⟨by omega, by omega, fits⟩
      · exact ⟨p', .inl (List.mem_cons_of_mem _ later), rfl, rfl⟩

end Calls

namespace Edit

variable {pool : PktsDpdk} {pkt : Packet}

/-- A run is safe iff each of its calls meets its condition. -/
theorem safe_iff (filled : FilledTo pool.room pool pkt.particle) (edits : List Edit) :
    Safe edits pkt pool ↔ MeetsAll edits pkt pool := by
  induction edits generalizing pkt pool with
  | nil => exact Iff.rfl
  | cons e rest ih =>
    have later : e.Meets pkt pool → ∀ {pkt' pool'}, e.run pkt pool = .ok (pkt', pool') →
        (Safe rest pkt' pool' ↔ MeetsAll rest pkt' pool') := by
      intro meets pkt' pool' run
      exact ih (filled.step meets run).1
    constructor
    · rintro ⟨touched, safe⟩
      have meets := filled.touches_iff.mp touched
      exact ⟨meets, fun pkt' pool' run => (later meets run).mp (safe pkt' pool' run)⟩
    · rintro ⟨meets, all⟩
      exact ⟨filled.touches_iff.mpr meets, fun pkt' pool' run => (later meets run).mpr (all pkt' pool' run)⟩

/-- With particles of no bytes there is nothing to touch. -/
theorem meetsAll_empty (filled : FilledTo pool.room pool pkt.particle) (none : pool.particleSz = 0)
    (edits : List Edit) : MeetsAll edits pkt pool := by
  induction edits generalizing pkt pool with
  | nil => trivial
  | cons e rest ih =>
    have bare : ∀ p ∈ pkt.particle, p.raw.length = 0 := fun p member => (filled.size p member).trans none
    have meets : e.Meets pkt pool := by
      cases e with
      | append bytes =>
        intro p last
        have size := bare p (List.mem_of_getLast? last)
        omega
      | prepend bytes => trivial
      | moveTail mv =>
        intro p last fits
        have size := bare p (List.mem_of_getLast? last)
        omega
      | headMut offset bytes =>
        intro p first some fits
        have size := bare p (List.mem_of_head? first)
        omega
    refine ⟨meets, fun pkt' pool' run => ?_⟩
    obtain ⟨kept, size⟩ := filled.step meets run
    exact ih kept (size.trans none)

end Edit

/-- A packet over an mbuf of the pool: as `particle` makes it, or as `recvmsg` does, for which the
library leaves its headroom in the data room. -/
def Packet.OverMbuf (pkt : Packet) (pool : PktsDpdk) (m : Mbuf) : Prop :=
  pkt.particle = [boxPart pool.dpdkPool m] ∨
    (pool.dpdkPool.headroom ≤ pool.bufSz ∧
      pkt.particle = [(boxPart pool.dpdkPool m).reinit pool.dpdkPool.ownHeadroom])

namespace Packet

variable {pool pool' : PktsDpdk} {pkt : Packet} {m : Mbuf}

theorem overMbuf_pkt {headroom : Nat} (run : pool.pkt headroom = .ok (some pkt, pool')) :
    ∃ m, pkt.OverMbuf pool' m := by
  obtain ⟨_, _, ⟨m, chain⟩, _, kept, _⟩ := PktsDpdk.pkt_some run
  refine ⟨m, .inl ?_⟩
  rw [chain, boxPart, boxPart, kept]

theorem overMbuf_received (room : pool.dpdkPool.headroom ≤ pool.bufSz)
    (run : pool.pktWithParticles ((boxPart pool.dpdkPool m).reinit pool.dpdkPool.ownHeadroom) = (some pkt, pool')) :
    pkt.OverMbuf pool' m := by
  unfold PktsDpdk.pktWithParticles at run
  split at run
  · cases run
    exact .inr ⟨room, rfl⟩
  · cases run

theorem OverMbuf.filledTo (built : pkt.OverMbuf pool m) (sized : pool.Sized) :
    FilledTo pool.room pool pkt.particle := by
  rcases built with chain | ⟨room, chain⟩
  · rw [chain]
    exact ⟨sized, by simp, by simpa [boxPart] using sized m, by simp [boxPart]⟩
  · rw [chain]
    refine ⟨sized, by simp, by simpa [boxPart, Particle.reinit] using sized m, ?_⟩
    simp only [List.mem_singleton, forall_eq, Particle.reinit]
    exact Nat.sub_le_sub_right room headroomSteal

end Packet

/-- A run over the mbuf of a new or a received packet stays in the data room iff each of its calls ends
there. The particle starts 16 bytes into the buffer and has its whole size, so every run stays there
iff a particle has no bytes. -/
theorem data_in_room_iff {pool : PktsDpdk} {pkt : Packet} {m : Mbuf} (sized : pool.Sized)
    (built : pkt.OverMbuf pool m) :
    (∀ edits, Edit.Safe edits pkt pool ↔ Edit.MeetsAll edits pkt pool) ∧
      ((∀ edits, Edit.Safe edits pkt pool) ↔ pool.particleSz = 0) := by
  have filled := built.filledTo sized
  refine ⟨Edit.safe_iff filled, fun safe => ?_, fun none edits => ?_⟩
  · by_contra some
    -- an append of the size of a particle fills it to its end
    obtain ⟨meets, _⟩ := (Edit.safe_iff filled [.append (List.replicate pool.particleSz 0)]).mp (safe _)
    have short := pool.room_lt some
    obtain ⟨front, p, chain⟩ := pkt.particle.eq_nil_or_concat'.resolve_left filled.chained
    have ends := meets p (by simp [chain])
    rw [filled.size p (by simp [chain]), List.length_replicate] at ends
    omega
  · exact (Edit.safe_iff filled edits).mpr (Edit.meetsAll_empty filled none edits)

/-- An append of the size of a particle to a new packet touches its last byte. -/
theorem Edit.touches_end {pool : PktsDpdk} {pkt : Packet} {m : Mbuf} {bytes : List UInt8} (sized : pool.Sized)
    (fresh : pkt.particle = [boxPart pool.dpdkPool m]) (full : bytes.length = pool.particleSz)
    (some : pool.particleSz ≠ 0) : (Edit.append bytes).Touches pkt pool m (pool.particleSz - 1) := by
  have fits : (boxPart pool.dpdkPool m).tail + bytes.length ≤ (boxPart pool.dpdkPool m).raw.length := by
    simp [boxPart, full, sized m]
  obtain ⟨p', loop, ptr, head, tail, _⟩ := Packet.tryAppendLoop_fits [] (bytes.length + TryPool.left pool) fits pool
  have left : (Edit.append bytes).leaves pkt pool = .ok [p'] := by
    rw [List.nil_append, List.nil_append, ← fresh] at loop
    simp only [Edit.leaves, loop, Except.ok_bind]
  have start : (boxPart pool.dpdkPool m).head = 0 ∧ (boxPart pool.dpdkPool m).tail = 0 := ⟨rfl, rfl⟩
  exact .inl ⟨[p'], left, p', by simp, ptr, by omega, by omega⟩

/-- A packet that fills a particle of 2048 bytes ends 15 bytes past the data room. -/
theorem full_particle_leaves : ∃ pkt pool, (smallDpdk 2048).pkt 0 = .ok (some pkt, pool) ∧ pool.bufSz = 2048 ∧
    Edit.Touches pkt pool 0 2047 (.append (List.replicate 2048 7)) ∧
    mbufToRaw pool.dpdkPool 0 + 2047 - pool.dpdkPool.bufAddr 0 = 2063 ∧ ¬pool.InRoom 0 2047 := by
  refine ⟨_, _, rfl, rfl, ?_, rfl, ?_⟩
  · exact Edit.touches_end (fun _ => List.length_replicate) rfl List.length_replicate (by decide)
  · rw [PktsDpdk.inRoom_iff]
    decide

/-- Three bytes end in the data room. -/
theorem data_in_room_small : ∃ pkt pool, (smallDpdk 2048).pkt 0 = .ok (some pkt, pool) ∧
    Edit.Safe [.append [1, 2, 3]] pkt pool := by
  refine ⟨_, _, rfl, ((@data_in_room_iff _ _ 0 (fun _ => ?_) (.inl rfl)).1 _).mpr ⟨?_, fun _ _ _ => trivial⟩⟩
  · exact List.length_replicate
  · intro p last
    cases last
    exact le_trans (Nat.min_le_right ..) (by decide)

end R2
