import R2.Packet.Reading
import R2.Packet.Heap

namespace R2

/-- A packet pool whose `particle` may panic; `left` counts the particles it still has. -/
class TryPool (σ : Type) where
  particle : σ → Nat → Outcome (Option Particle × σ)
  particleSz : σ → Nat
  left : σ → Nat

/-- `accepts` are the headrooms for which `particle` returns. -/
class FinitePool (σ : Type) [TryPool σ] where
  accepts : σ → Nat → Prop
  particle_ok : ∀ {pool : σ} {headroom : Nat}, accepts pool headroom → ∃ p pool',
    TryPool.particle pool headroom = .ok (p, pool') ∧ accepts pool' = accepts pool ∧
      TryPool.particleSz pool' = TryPool.particleSz pool ∧
      ∀ q ∈ p, TryPool.left pool' < TryPool.left pool ∧ (headroom ≤ TryPool.particleSz pool → q.InBounds)
  particle_panics : ∀ {pool : σ} {headroom : Nat}, ¬accepts pool headroom →
    ∃ fault, TryPool.particle pool headroom = .error fault

instance : TryPool PktsHeap where
  particle pool headroom := .ok (pool.particle headroom)
  particleSz := PktsHeap.particleSz
  left pool := pool.particles.length

instance : FinitePool PktsHeap where
  accepts _ _ := True
  particle_ok {pool headroom} _ := by
    refine ⟨(pool.particle headroom).1, (pool.particle headroom).2, rfl, rfl, ?_, fun q member => ?_⟩
    · change (pool.particle headroom).2.particleSz = pool.particleSz
      unfold PktsHeap.particle
      split <;> rfl
    · have allocated : pool.particle headroom = (some q, (pool.particle headroom).2) :=
        Prod.ext_iff.mpr ⟨member, rfl⟩
      obtain ⟨_, tail, size⟩ := PktsHeap.particle_some allocated
      refine ⟨?_, fun fits => ?_⟩
      · change (pool.particle headroom).2.particles.length < pool.particles.length
        unfold PktsHeap.particle at member ⊢
        split at member
        · cases member
        · rename_i cut
          simp [cut]
      · rw [Particle.InBounds, tail, size]
        exact fits
  particle_panics refused := absurd trivial refused

namespace Packet

section Loops

variable {σ : Type} [TryPool σ]

/-- The loop of `prepend`: `l` bytes of `bytes` are still to be placed. -/
def tryPrependLoop (bytes : List UInt8) : Nat → Nat → List Particle → σ → Outcome (Bool × List Particle × σ)
  | 0, _, _, _ => .error .diverges
  | fuel + 1, l, chain, pool =>
    if l = 0 then
      .ok (true, chain, pool)
    else
      match chain with
      | [] => .error .unwrap
      | p :: rest => do
        let (n, p) ← p.prepend (window bytes 0 l)
        if n ≠ l then do
          let (q, pool) ← TryPool.particle pool (TryPool.particleSz pool)
          match q with
          | none => .ok (false, p :: rest, pool)
          | some q => tryPrependLoop bytes fuel (l - n) (q :: p :: rest) pool
        else
          tryPrependLoop bytes fuel (l - n) (p :: rest) pool

/-- Every turn but the last two takes a particle. -/
def tryPrepend (pkt : Packet) (pool : σ) (bytes : List UInt8) : Outcome (Bool × Packet × σ) := do
  let (done, chain, pool) ← tryPrependLoop bytes (TryPool.left pool + 2) bytes.length pkt.particle pool
  if done then do
    let length ← add64 pkt.length bytes.length
    .ok (true, { pkt with particle := chain, length := length }, pool)
  else
    .ok (false, { pkt with particle := chain }, pool)

/-- The loop of `append`: the first `offset` bytes are placed. -/
def tryAppendLoop (bytes : List UInt8) : Nat → Nat → List Particle → σ → Outcome (Bool × List Particle × σ)
  | 0, _, _, _ => .error .diverges
  | fuel + 1, offset, chain, pool =>
    if offset = bytes.length then
      .ok (true, chain, pool)
    else do
      let (n, chain) ← withLast (fun p => p.append (window bytes offset bytes.length)) chain
      if n = 0 then do
        let (q, pool) ← TryPool.particle pool 0
        match q with
        | none => .ok (false, chain, pool)
        | some q => tryAppendLoop bytes fuel (offset + n) (chain ++ [q]) pool
      else
        tryAppendLoop bytes fuel (offset + n) chain pool

/-- Every turn but the last takes a particle or places a byte. -/
def tryAppend (pkt : Packet) (pool : σ) (bytes : List UInt8) : Outcome (Bool × Packet × σ) := do
  let (done, chain, pool) ← tryAppendLoop bytes (bytes.length + TryPool.left pool + 2) 0 pkt.particle pool
  if done then do
    let length ← add64 pkt.length bytes.length
    .ok (true, { pkt with particle := chain, length := length }, pool)
  else
    .ok (false, { pkt with particle := chain }, pool)

def tryPushL2 (pkt : Packet) (pool : σ) (bytes : List UInt8) : Outcome (Bool × Packet × σ) := do
  let (done, pkt, pool) ← pkt.tryPrepend pool bytes
  if !done then
    .ok (false, pkt, pool)
  else do
    let p ← pkt.first
    .ok (true, { pkt with l2 := p.head, l2Len := bytes.length }, pool)

def tryPushL3 (pkt : Packet) (pool : σ) (bytes : List UInt8) : Outcome (Bool × Packet × σ) := do
  let (done, pkt, pool) ← pkt.tryPrepend pool bytes
  if !done then
    .ok (false, pkt, pool)
  else do
    let p ← pkt.first
    .ok (true, { pkt with l3 := p.head, l3Len := bytes.length }, pool)

variable {bytes : List UInt8} {fuel l offset : Nat} {chain chain' : List Particle} {pool pool' : σ} {done : Bool}

/-- What every placement and every new particle keep, the loop of `prepend` keeps. -/
theorem tryPrependLoop_rule {inv : List Particle → σ → Prop}
    (placed : ∀ {p rest pool bytes n p'}, inv (p :: rest) pool → p.prepend bytes = .ok (n, p') →
      inv (p' :: rest) pool)
    (taken : ∀ {chain pool headroom q pool'}, inv chain pool → TryPool.particle pool headroom = .ok (q, pool') →
      inv (q.toList ++ chain) pool')
    (start : inv chain pool) (run : tryPrependLoop bytes fuel l chain pool = .ok (done, chain', pool')) :
    inv chain' pool' := by
  induction fuel generalizing l chain pool with
  | zero => cases run
  | succ fuel ih =>
    unfold tryPrependLoop at run
    split at run
    · cases run
      exact start
    · split at run
      · cases run
      · rename_i p rest
        obtain ⟨⟨n, p'⟩, written, run⟩ := Except.bind_ok_iff.mp run
        have next := placed start written
        dsimp only at run
        split at run
        · obtain ⟨⟨q, pool₁⟩, given, run⟩ := Except.bind_ok_iff.mp run
          have grown := taken next given
          cases q with
          | none =>
            cases run
            exact grown
          | some q => exact ih grown run
        · exact ih next run

/-- What every placement and every new particle keep, the loop of `append` keeps. -/
theorem tryAppendLoop_rule {inv : List Particle → σ → Prop}
    (placed : ∀ {chain pool bytes n chain'}, inv chain pool →
      withLast (fun p => p.append bytes) chain = .ok (n, chain') → inv chain' pool)
    (taken : ∀ {chain pool q pool'}, inv chain pool → TryPool.particle pool 0 = .ok (q, pool') →
      inv (chain ++ q.toList) pool')
    (start : inv chain pool) (run : tryAppendLoop bytes fuel offset chain pool = .ok (done, chain', pool')) :
    inv chain' pool' := by
  induction fuel generalizing offset chain pool with
  | zero => cases run
  | succ fuel ih =>
    unfold tryAppendLoop at run
    split at run
    · cases run
      exact start
    · obtain ⟨⟨n, chain₁⟩, written, run⟩ := Except.bind_ok_iff.mp run
      have next := placed start written
      dsimp only at run
      split at run
      · obtain ⟨⟨q, pool₁⟩, given, run⟩ := Except.bind_ok_iff.mp run
        have grown := taken next given
        cases q with
        | none =>
          cases run
          simpa using grown
        | some q => exact ih grown run
      · exact ih next run

theorem tryPrepend_loop {pkt pkt' : Packet} (run : pkt.tryPrepend pool bytes = .ok (done, pkt', pool')) :
    tryPrependLoop bytes (TryPool.left pool + 2) bytes.length pkt.particle pool =
      .ok (done, pkt'.particle, pool') := by
  cases done with
  | false =>
    obtain ⟨chain, loop, rfl⟩ := grown_failed run
    exact loop
  | true =>
    obtain ⟨chain, _, loop, _, rfl⟩ := grown_done run
    exact loop

theorem tryAppend_loop {pkt pkt' : Packet} (run : pkt.tryAppend pool bytes = .ok (done, pkt', pool')) :
    tryAppendLoop bytes (bytes.length + TryPool.left pool + 2) 0 pkt.particle pool =
      .ok (done, pkt'.particle, pool') := by
  cases done with
  | false =>
    obtain ⟨chain, loop, rfl⟩ := grown_failed run
    exact loop
  | true =>
    obtain ⟨chain, _, loop, _, rfl⟩ := grown_done run
    exact loop

end Loops

/-- Where the particles come from the heap, the loop is the one over a pool that never panics. -/
theorem tryPrependLoop_heap (bytes : List UInt8) (fuel l : Nat) (chain : List Particle) (pool : PktsHeap) :
    tryPrependLoop bytes fuel l chain pool = prependLoop bytes fuel l chain pool := by
  induction fuel generalizing l chain pool with
  | zero => rfl
  | succ fuel ih =>
    unfold tryPrependLoop prependLoop
    split
    · rfl
    · cases chain with
      | nil => rfl
      | cons p rest =>
        dsimp only
        congr 1
        funext out
        obtain ⟨n, p'⟩ := out
        dsimp only
        split
        · cases given : pool.particle pool.particleSz with
          | mk q pool' =>
            simp only [TryPool.particle, TryPool.particleSz, PacketPool.particle, PacketPool.particleSz, given,
              Except.ok_bind]
            cases q with
            | none => rfl
            | some q => exact ih ..
        · exact ih ..

theorem tryAppendLoop_heap (bytes : List UInt8) (fuel offset : Nat) (chain : List Particle) (pool : PktsHeap) :
    tryAppendLoop bytes fuel offset chain pool = appendLoop bytes fuel offset chain pool := by
  induction fuel generalizing offset chain pool with
  | zero => rfl
  | succ fuel ih =>
    unfold tryAppendLoop appendLoop
    split
    · rfl
    · congr 1
      funext out
      obtain ⟨n, chain'⟩ := out
      dsimp only
      split
      · cases given : pool.particle 0 with
        | mk q pool' =>
          simp only [TryPool.particle, PacketPool.particle, given, Except.ok_bind]
          cases q with
          | none => rfl
          | some q => exact ih ..
      · exact ih ..

end Packet

namespace Particle

variable {p : Particle} {bytes : List UInt8}

/-- What fits in front of the head is written there. -/
theorem prepend_fits (inBounds : p.InBounds) (fits : bytes.length ≤ p.head) : ∃ p',
    p.prepend bytes = .ok (bytes.length, p') ∧ p'.head = p.head - bytes.length ∧ p'.tail = p.tail ∧
      p'.raw = overwrite p.raw (p.head - bytes.length) bytes := by
  have below := p.head_le_tail
  unfold InBounds at inBounds
  have copied : copyFromSlice p.raw (p.head - bytes.length) p.head (window bytes 0 bytes.length) =
      .ok (overwrite p.raw (p.head - bytes.length) bytes) := by
    rw [window_whole, copyFromSlice, if_pos ⟨Nat.sub_le _ _, by omega, by omega⟩]
  simp only [prepend, if_neg (show ¬p.head < bytes.length by omega), copied, Except.ok_bind]
  exact ⟨_, rfl, rfl, rfl, rfl⟩

/-- What fits behind the tail is written there. -/
theorem append_fits (fits : p.tail + bytes.length ≤ p.raw.length) : ∃ p',
    p.append bytes = .ok (bytes.length, p') ∧ p'.ptr = p.ptr ∧ p'.head = p.head ∧ p'.tail = p.tail + bytes.length ∧
      p'.raw = overwrite p.raw p.tail bytes := by
  have room : sub64 p.raw.length p.tail = .ok (p.raw.length - p.tail) := sub64_ok.mpr ⟨by omega, rfl⟩
  have all : min (p.raw.length - p.tail) bytes.length = bytes.length := by omega
  have copied : copyFromSlice p.raw p.tail (p.tail + bytes.length) (window bytes 0 bytes.length) =
      .ok (overwrite p.raw p.tail bytes) := by
    rw [window_whole, copyFromSlice, if_pos ⟨Nat.le_add_right _ _, by omega, by omega⟩]
  simp only [append, room, all, copied, Except.ok_bind]
  exact ⟨_, rfl, rfl, rfl, rfl, rfl⟩

end Particle

namespace Packet

section Fits

variable {σ : Type} [TryPool σ] {pkt : Packet} {p : Particle} {bytes : List UInt8}

/-- A prepend that fits does not ask the pool. -/
theorem tryPrepend_fits (single : pkt.particle = [p]) (inBounds : p.InBounds) (fits : bytes.length ≤ p.head)
    (small : pkt.length + bytes.length < 2 ^ 64) (pool : σ) : ∃ p',
    pkt.tryPrepend pool bytes = .ok (true, { pkt with particle := [p'], length := pkt.length + bytes.length }, pool) ∧
      p'.head = p.head - bytes.length ∧ p'.tail = p.tail ∧
      p'.raw = overwrite p.raw (p.head - bytes.length) bytes := by
  obtain ⟨p', written, place⟩ := Particle.prepend_fits inBounds fits
  by_cases none : bytes.length = 0
  · refine ⟨p, ?_, by omega, rfl, ?_⟩
    · rw [tryPrepend, single]
      unfold tryPrependLoop
      rw [if_pos none, Except.ok_bind]
      dsimp only
      rw [if_pos rfl, add64_ok.mpr ⟨small, rfl⟩]
      rfl
    · simp [overwrite, List.eq_nil_of_length_eq_zero none]
  · refine ⟨p', ?_, place⟩
    rw [tryPrepend, single]
    unfold tryPrependLoop
    rw [if_neg none]
    dsimp only
    rw [window_whole, written, Except.ok_bind]
    dsimp only
    rw [if_neg (not_not_intro rfl), Nat.sub_self]
    unfold tryPrependLoop
    rw [if_pos rfl, Except.ok_bind]
    dsimp only
    rw [if_pos rfl, add64_ok.mpr ⟨small, rfl⟩]
    rfl

/-- What fits behind the last tail is written there, without the pool. -/
theorem tryAppendLoop_fits (front : List Particle) (fuel : Nat) (fits : p.tail + bytes.length ≤ p.raw.length)
    (pool : σ) : ∃ p', tryAppendLoop bytes (fuel + 2) 0 (front ++ [p]) pool = .ok (true, front ++ [p'], pool) ∧
      p'.ptr = p.ptr ∧ p'.head = p.head ∧ p'.tail = p.tail + bytes.length ∧
        p'.raw = overwrite p.raw p.tail bytes := by
  obtain ⟨p', written, place⟩ := Particle.append_fits fits
  by_cases none : bytes.length = 0
  · refine ⟨p, ?_, rfl, rfl, by omega, ?_⟩
    · unfold tryAppendLoop
      exact if_pos none.symm
    · simp [overwrite, List.eq_nil_of_length_eq_zero none]
  · refine ⟨p', ?_, place⟩
    have placed : withLast (fun p => p.append (window bytes 0 bytes.length)) (front ++ [p]) =
        .ok (bytes.length, front ++ [p']) := withLast_concat (by rw [window_whole, written])
    unfold tryAppendLoop
    rw [if_neg (by omega), placed, Except.ok_bind]
    dsimp only
    rw [if_neg none]
    unfold tryAppendLoop
    rw [if_pos (by omega)]

/-- An append that fits does not ask the pool. -/
theorem tryAppend_fits (single : pkt.particle = [p]) (fits : p.tail + bytes.length ≤ p.raw.length)
    (small : pkt.length + bytes.length < 2 ^ 64) (pool : σ) : ∃ p',
    pkt.tryAppend pool bytes = .ok (true, { pkt with particle := [p'], length := pkt.length + bytes.length }, pool) ∧
      p'.head = p.head ∧ p'.tail = p.tail + bytes.length ∧ p'.raw = overwrite p.raw p.tail bytes := by
  obtain ⟨p', loop, _, place⟩ := tryAppendLoop_fits [] (bytes.length + TryPool.left pool) fits pool
  refine ⟨p', ?_, place⟩
  rw [List.nil_append, List.nil_append, ← single] at loop
  rw [tryAppend, loop, Except.ok_bind]
  dsimp only
  rw [if_pos rfl, add64_ok.mpr ⟨small, rfl⟩]
  rfl

end Fits

section Exceeds

variable {σ : Type} [TryPool σ] [FinitePool σ] {bytes : List UInt8} {pkt : Packet} {p : Particle}

/-- Every turn takes a particle or is one of the last two, so the loop ends. -/
theorem tryPrependLoop_returns {fuel l : Nat} {rest : List Particle} {pool : σ} (inBounds : p.InBounds)
    (within : l ≤ bytes.length) (accepts : FinitePool.accepts pool (TryPool.particleSz pool))
    (enough : TryPool.left pool + 2 ≤ fuel) :
    ∃ done chain' pool', tryPrependLoop bytes fuel l (p :: rest) pool = .ok (done, chain', pool') := by
  induction fuel generalizing l p rest pool with
  | zero => omega
  | succ fuel ih =>
    unfold tryPrependLoop
    by_cases finished : l = 0
    · exact ⟨true, p :: rest, pool, if_pos finished⟩
    · obtain ⟨p', n, written, _, _, inBounds', _⟩ := p.prepend_spec inBounds (window bytes 0 l)
      simp only [if_neg finished, written, Except.ok_bind]
      by_cases all : n = l
      · rw [if_neg (not_not_intro all), all, Nat.sub_self]
        cases fuel with
        | zero => omega
        | succ fuel =>
          unfold tryPrependLoop
          exact ⟨true, p' :: rest, pool, if_pos rfl⟩
      · rw [if_pos all]
        obtain ⟨q, pool', given, accepts', size, supply⟩ := FinitePool.particle_ok accepts
        simp only [given, Except.ok_bind]
        cases q with
        | none => exact ⟨false, p' :: rest, pool', rfl⟩
        | some q =>
          obtain ⟨fewer, fresh⟩ := supply q rfl
          exact ih (fresh le_rfl) (by omega) (accepts' ▸ size ▸ accepts) (by omega)

/-- Every turn takes a particle, places a byte or is the last one. -/
theorem tryAppendLoop_returns {fuel offset : Nat} {chain : List Particle} {pool : σ} (chained : chain ≠ [])
    (inBounds : ∀ p ∈ chain, p.InBounds) (within : offset ≤ bytes.length) (accepts : FinitePool.accepts pool 0)
    (enough : bytes.length - offset + TryPool.left pool < fuel) :
    ∃ done chain' pool', tryAppendLoop bytes fuel offset chain pool = .ok (done, chain', pool') := by
  induction fuel generalizing offset chain pool with
  | zero => omega
  | succ fuel ih =>
    unfold tryAppendLoop
    by_cases finished : offset = bytes.length
    · exact ⟨true, chain, pool, if_pos finished⟩
    · obtain ⟨front, p, rfl⟩ := chain.eq_nil_or_concat'.resolve_left chained
      have others : ∀ q ∈ front, q.InBounds := fun q member => inBounds q (List.mem_append_left _ member)
      obtain ⟨p', n, written, count, _, _, inBounds', _⟩ :=
        p.append_spec (inBounds p (by simp)) (window bytes offset bytes.length)
      rw [window_length le_rfl] at count
      have now : ∀ q ∈ front ++ [p'], q.InBounds := by
        intro q member
        rcases List.mem_append.mp member with old | last
        · exact others q old
        · exact List.mem_singleton.mp last ▸ inBounds'
      have placed : withLast (fun p => p.append (window bytes offset bytes.length)) (front ++ [p]) =
          .ok (n, front ++ [p']) := withLast_concat written
      simp only [if_neg finished, placed, Except.ok_bind]
      by_cases full : n = 0
      · obtain ⟨q, pool', given, accepts', size, supply⟩ := FinitePool.particle_ok accepts
        simp only [if_pos full, given, Except.ok_bind]
        cases q with
        | none => exact ⟨false, _, pool', rfl⟩
        | some q =>
          obtain ⟨fewer, fresh⟩ := supply q rfl
          refine ih (by simp) (fun r member => ?_) (by omega) (accepts' ▸ accepts) (by omega)
          rcases List.mem_append.mp member with old | new
          · exact now r old
          · exact List.mem_singleton.mp new ▸ fresh (Nat.zero_le _)
      · rw [if_neg full]
        exact ih (by simp) now (by omega) accepts (by omega)

/-- A prepend that exceeds the headroom returns if the pool accepts its own particle size as a
headroom, and panics otherwise. -/
theorem tryPrepend_exceeds {rest : List Particle} {pool : σ} (chain : pkt.particle = p :: rest)
    (inBounds : p.InBounds) (exceeds : p.head < bytes.length) (small : pkt.length + bytes.length < 2 ^ 64) :
    (∃ done pkt' pool', pkt.tryPrepend pool bytes = .ok (done, pkt', pool')) ↔
      FinitePool.accepts pool (TryPool.particleSz pool) := by
  constructor
  · rintro ⟨done, pkt', pool', run⟩
    by_contra refused
    obtain ⟨fault, panics⟩ := FinitePool.particle_panics refused
    obtain ⟨out, loop, _⟩ := Except.bind_ok_iff.mp run
    obtain ⟨p', n, written, count, _⟩ := p.prepend_spec inBounds (window bytes 0 bytes.length)
    rw [window_length le_rfl] at count
    rw [chain] at loop
    unfold tryPrependLoop at loop
    simp only [if_neg (show ¬bytes.length = 0 by omega), written, Except.ok_bind,
      if_pos (show n ≠ bytes.length by omega), panics] at loop
    cases loop
  · intro accepts
    have returns : ∃ done chain' pool', tryPrependLoop bytes (TryPool.left pool + 2) bytes.length (p :: rest) pool =
        .ok (done, chain', pool') := tryPrependLoop_returns inBounds le_rfl accepts le_rfl
    obtain ⟨done, chain', pool', loop⟩ := returns
    rw [← chain] at loop
    rw [tryPrepend, loop, Except.ok_bind]
    cases done with
    | false => exact ⟨_, _, _, rfl⟩
    | true =>
      dsimp only
      rw [if_pos rfl, add64_ok.mpr ⟨small, rfl⟩]
      exact ⟨_, _, _, rfl⟩

end Exceeds

end Packet

end R2
