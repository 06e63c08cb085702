import R2.Packet.Failed

namespace R2

namespace Particle

/-- The same bytes at the same place, with more behind them. -/
structure Extends (p p' : Particle) : Prop where
  head : p'.head = p.head
  inBounds : p'.InBounds
  content : p.content <+: p'.content

theorem Extends.refl {p : Particle} (inBounds : p.InBounds) : Extends p p :=
  ⟨rfl, inBounds, List.prefix_rfl⟩

theorem Extends.trans {p q r : Particle} (first : Extends p q) (second : Extends q r) : Extends p r :=
  ⟨second.head.trans first.head, second.inBounds, first.content.trans second.content⟩

theorem moveTail_extends {p p' : Particle} {mv got : Int} (inBounds : p.InBounds) (forward : 0 ≤ mv)
    (moved : p.moveTail mv = (got, p')) : p.Extends p' := by
  unfold moveTail at moved
  dsimp only at moved
  split at moved
  · obtain ⟨-, rfl⟩ := Prod.mk.inj moved
    exact .refl inBounds
  · rename_i good
    obtain ⟨-, rfl⟩ := Prod.mk.inj moved
    have again : p.moveTail mv = (mv, _) := dif_neg good
    obtain ⟨inBounds', exposes, -⟩ := moveTail_ok inBounds again
    exact ⟨rfl, inBounds', (exposes forward).1 ▸ List.prefix_append ..⟩

end Particle

namespace Packet

variable {bytes : List UInt8} {p : Particle} {rest chain' : List Particle} {fuel l offset : Nat}

theorem withLast_first {α : Type} {f : Particle → Outcome (α × Particle)} {a : α}
    (run : withLast f (p :: rest) = .ok (a, chain')) (chained : Chained (p :: rest))
    (extends_ : ∀ q q', q.InBounds → f q = .ok (a, q') → q.Extends q') :
    Chained chain' ∧ ∃ p' rest', chain' = p' :: rest' ∧ p.Extends p' := by
  obtain ⟨front, q, q', shape, at_q, rfl⟩ := withLast_ok run
  rw [shape] at chained
  have inBounds := chained.inBounds q (List.mem_append_right _ (List.mem_singleton_self q))
  have grown := extends_ q q' inBounds at_q
  refine ⟨chained.replaceLast grown.inBounds, ?_⟩
  cases front with
  | nil =>
    obtain ⟨rfl, -⟩ := List.cons.inj shape
    exact ⟨q', [], rfl, grown⟩
  | cons p₀ front =>
    obtain ⟨rfl, -⟩ := List.cons.inj shape
    exact ⟨p, front ++ [q'], rfl, .refl (chained.inBounds p (List.mem_cons_self ..))⟩

section Pool

variable {σ : Type} [PacketPool σ] [UniformPool σ] {pool pool' : σ}

/-- Where the bytes of a `prepend` begin: in the old first particle when they
fit there, else in a new one that holds what is left over, or the last of it. -/
theorem prependLoop_first (run : prependLoop bytes fuel l (p :: rest) pool = .ok (true, chain', pool'))
    (within : l ≤ bytes.length) (chained : Chained (p :: rest)) : ∃ q rest', chain' = q :: rest' ∧ q.InBounds ∧
      (l ≤ p.head → q.head = p.head - l ∧ q.raw.length = p.raw.length ∧ q.content = bytes.take l ++ p.content) ∧
      (p.head < l → q.raw.length = PacketPool.particleSz pool ∧ q.raw.length - q.head ≤ l - p.head ∧
        (l - p.head ≤ PacketPool.particleSz pool → q.content = bytes.take (l - p.head))) := by
  induction fuel generalizing l p rest pool with
  | zero => cases run
  | succ fuel ih =>
    rw [prependLoop] at run
    have inBounds := chained.inBounds p (List.mem_cons_self ..)
    by_cases finished : l = 0
    · rw [if_pos finished] at run
      cases Except.ok.inj run
      subst finished
      exact ⟨p, rest, rfl, inBounds, fun _ => ⟨rfl, rfl, rfl⟩, fun less => absurd less (Nat.not_lt_zero _)⟩
    · rw [if_neg finished] at run
      obtain ⟨p', n, placed, count, head, inBounds', size, grown⟩ := p.prepend_spec inBounds (window bytes 0 l)
      rw [window_length within] at count
      dsimp only at run
      rw [placed, Except.ok_bind] at run
      dsimp only at run
      have kept : Chained (p' :: rest) := chained.cons inBounds'
      by_cases all : n = l
      · have fits : l ≤ p.head := by omega
        rw [if_neg (not_not_intro all)] at run
        obtain ⟨q, rest', shape, bounded, here, -⟩ := ih run (by omega) kept
        obtain ⟨top, same, content⟩ := here (by omega)
        refine ⟨q, rest', shape, bounded, fun _ => ⟨by omega, same.trans size, ?_⟩, fun less =>
          absurd less (by omega)⟩
        rw [content, grown, window_length within, show l - 0 - n = 0 by omega, show l - n = 0 by omega,
          List.take_zero, List.nil_append, List.drop_zero]
        rfl
      · have short : p.head < l := by omega
        rw [if_pos all] at run
        split at run
        · cases Except.ok.inj run
        · rename_i q₀ pool₁ allocated
          obtain ⟨top, tail, fresh⟩ := LawfulPool.particle_empty allocated le_rfl
          have room := UniformPool.particle_sized allocated
          have steady := particle_steady allocated
          have empty := Particle.content_empty top tail
          rw [show l - n = l - p.head by omega] at run
          obtain ⟨q, rest', shape, bounded, fits, spills⟩ := ih run (by omega) (kept.push fresh)
          refine ⟨q, rest', shape, bounded, fun enough => absurd enough (by omega), fun _ => ?_⟩
          by_cases enough : l - p.head ≤ PacketPool.particleSz pool
          · obtain ⟨top', same, content⟩ := fits (by omega)
            refine ⟨same.trans room, by omega, fun _ => ?_⟩
            rw [content, empty, List.append_nil]
          · obtain ⟨same, small, -⟩ := spills (by omega)
            exact ⟨same.trans steady, by omega, fun other => absurd other enough⟩

theorem appendLoop_first (run : appendLoop bytes fuel offset (p :: rest) pool = .ok (true, chain', pool'))
    (chained : Chained (p :: rest)) : ∃ p' rest', chain' = p' :: rest' ∧ p.Extends p' := by
  induction fuel generalizing offset p rest pool with
  | zero => cases run
  | succ fuel ih =>
    rw [appendLoop] at run
    by_cases finished : offset = bytes.length
    · rw [if_pos finished] at run
      cases Except.ok.inj run
      exact ⟨p, rest, rfl, .refl (chained.inBounds p (List.mem_cons_self ..))⟩
    · rw [if_neg finished] at run
      obtain ⟨⟨n, grown⟩, last, run⟩ := Except.bind_ok_iff.mp run
      obtain ⟨kept, p', rest', rfl, extended⟩ := withLast_first last chained fun q q' inBounds placed => by
        obtain ⟨q'', n', placed', -, head, -, inBounds', -, content⟩ :=
          q.append_spec inBounds (window bytes offset bytes.length)
        obtain ⟨-, rfl⟩ := Prod.mk.inj (Except.ok.inj (placed.symm.trans placed'))
        exact ⟨head, inBounds', content ▸ List.prefix_append ..⟩
      dsimp only at run
      split at run
      · split at run
        · cases Except.ok.inj run
        · rename_i q pool₁ allocated
          obtain ⟨-, -, fresh⟩ := LawfulPool.particle_empty allocated (Nat.zero_le _)
          obtain ⟨p'', rest'', shape, more⟩ := ih run (kept.concat fresh)
          exact ⟨p'', rest'', shape, extended.trans more⟩
      · obtain ⟨p'', rest'', shape, more⟩ := ih run kept
        exact ⟨p'', rest'', shape, extended.trans more⟩

end Pool

/-- The two headers a packet records. -/
inductive Layer
  | l2
  | l3
deriving DecidableEq

namespace Layer

def off (pkt : Packet) : Layer → Nat
  | l2 => pkt.l2
  | l3 => pkt.l3

def len (pkt : Packet) : Layer → Nat
  | l2 => pkt.l2Len
  | l3 => pkt.l3Len

def set (pkt : Packet) (n : Nat) : Layer → Outcome (Bool × Packet)
  | l2 => pkt.setL2 n
  | l3 => pkt.setL3 n

def get (pkt : Packet) : Layer → Outcome (List UInt8 × Nat)
  | l2 => pkt.getL2
  | l3 => pkt.getL3

def push {σ : Type} [PacketPool σ] (pkt : Packet) (pool : σ) (bytes : List UInt8) :
    Layer → Outcome (Bool × Packet × σ)
  | l2 => pkt.pushL2 pool bytes
  | l3 => pkt.pushL3 pool bytes

/-- The calls that grow a packet and leave the header of this layer alone. -/
def Allows : Layer → Call → Prop
  | _, .prepend _ => True
  | _, .append _ => True
  | l3, .pushL2 _ => True
  | l2, .pushL3 _ => True
  | _, .moveTail mv => 0 ≤ mv
  | _, _ => False

/-- `get_l2` or `get_l3` returns these bytes first. -/
def Reads (layer : Layer) (pkt : Packet) (header : List UInt8) : Prop :=
  ∃ d, layer.get pkt = .ok (d, header.length) ∧ d.take header.length = header

/-- The header lies in the first particle. -/
structure Holds (layer : Layer) (pkt : Packet) (header : List UInt8) (p : Particle) : Prop where
  inBounds : p.InBounds
  start : p.head ≤ layer.off pkt
  len : layer.len pkt = header.length
  content : (p.content.drop (layer.off pkt - p.head)).take header.length = header

variable {layer : Layer} {pkt pkt' : Packet} {header : List UInt8}

theorem get_eq (layer : Layer) (pkt : Packet) : layer.get pkt =
    if layer.len pkt = 0 then .ok ([], 0) else (do
      let p ← pkt.first
      let d := p.dataRaw (layer.off pkt)
      if d.length < layer.len pkt then .ok ([], 0) else .ok (d, layer.len pkt)) := by
  cases layer with
  | l2 => rfl
  | l3 => rfl

theorem Holds.reads (holds : layer.Holds pkt header p) (chain : pkt.particle = p :: rest) :
    layer.Reads pkt header := by
  have inBounds := holds.inBounds
  have size := Particle.content_length inBounds
  unfold Particle.InBounds at inBounds
  unfold Particle.len at size
  have length := congrArg List.length holds.content
  rw [List.length_take, List.length_drop, size] at length
  have start := holds.start
  rw [Reads, get_eq, holds.len]
  by_cases empty : header.length = 0
  · rw [if_pos empty]
    exact ⟨[], by rw [empty], (List.length_eq_zero_iff.mp empty).symm ▸ rfl⟩
  · have inside : ¬p.raw.length ≤ layer.off pkt := by omega
    have data : p.dataRaw (layer.off pkt) = p.raw.drop (layer.off pkt) := if_neg inside
    have enough : ¬(p.raw.drop (layer.off pkt)).length < header.length := by
      rw [List.length_drop]
      omega
    refine ⟨p.raw.drop (layer.off pkt), ?_, ?_⟩
    · rw [if_neg empty, Packet.first, chain, Except.ok_bind]
      dsimp only
      rw [data, if_neg enough]
    · have content := holds.content
      rw [Particle.content, window_drop, show p.head + (layer.off pkt - p.head) = layer.off pkt by omega,
        window_take (by omega), window, List.drop_take, Nat.add_sub_cancel_left] at content
      exact content

/-- More bytes in front of the first particle's, and more behind them. -/
theorem Holds.grown {p' : Particle} {front back : List UInt8} (holds : layer.Holds pkt header p)
    (inBounds : p'.InBounds) (start : p'.head + front.length = p.head)
    (content : p'.content = front ++ p.content ++ back)
    (off : layer.off pkt' = layer.off pkt) (len : layer.len pkt' = layer.len pkt) : layer.Holds pkt' header p' where
  inBounds := inBounds
  start := by
    have := holds.start
    omega
  len := len.trans holds.len
  content := by
    have length := congrArg List.length holds.content
    rw [List.length_take, List.length_drop] at length
    have past : (layer.off pkt - p'.head) = front.length + (layer.off pkt - p.head) := by
      have := holds.start
      omega
    rw [off, content, past, List.append_assoc, ← List.drop_drop, List.drop_left]
    by_cases empty : header.length = 0
    · rw [empty, List.take_zero, List.length_eq_zero_iff.mp empty]
    · rw [List.drop_append_of_le_length (by omega), List.take_append_of_le_length (by rw [List.length_drop]; omega)]
      exact holds.content

theorem Holds.extends {p' : Particle} (holds : layer.Holds pkt header p) (extended : p.Extends p')
    (off : layer.off pkt' = layer.off pkt) (len : layer.len pkt' = layer.len pkt) : layer.Holds pkt' header p' := by
  obtain ⟨back, content⟩ := extended.content
  have start : p'.head + ([] : List UInt8).length = p.head := extended.head
  exact holds.grown extended.inBounds start content.symm off len

end Layer

/-- The bytes fit in front of those of the first particle. -/
def Call.Fits (pkt : Packet) : Call → Prop
  | .prepend bytes | .pushL2 bytes | .pushL3 bytes => ∃ room, pkt.headroom = .ok room ∧ bytes.length ≤ room
  | _ => True

/-- A packet after some successful calls that leave the header of the layer alone. -/
inductive Later (σ : Type) [PacketPool σ] (layer : Layer) (start : Packet) (header : List UInt8) : Packet → Prop
  | start : Later σ layer start header start
  | call {pkt pkt' : Packet} {pool pool' : σ} {c : Call} : Later σ layer start header pkt → layer.Allows c →
      header = [] ∨ c.Fits pkt → c.Succeeds pkt pool pkt' pool' → Later σ layer start header pkt'

section Runs

variable {σ : Type} [PacketPool σ] [UniformPool σ] {pool pool' : σ} {layer : Layer} {pkt pkt' : Packet}
variable {header : List UInt8}

/-- What a successful `prepend` does to the first particle. -/
theorem prepend_first (chained : Chained pkt.particle) (run : pkt.prepend pool bytes = .ok (true, pkt', pool')) :
    Chained pkt'.particle ∧ (∃ chain total, pkt' = { pkt with particle := chain, length := total }) ∧
      ∃ p rest q rest', pkt.particle = p :: rest ∧ pkt'.particle = q :: rest' ∧ q.InBounds ∧
      (bytes.length ≤ p.head → q.head = p.head - bytes.length ∧ q.content = bytes ++ p.content) ∧
      (p.head < bytes.length → q.raw.length = PacketPool.particleSz pool ∧
        q.raw.length - q.head ≤ bytes.length - p.head ∧
        (bytes.length - p.head ≤ PacketPool.particleSz pool → q.content = bytes.take (bytes.length - p.head))) := by
  obtain ⟨chain', total, loop, _, rfl⟩ := grown_done run
  obtain ⟨p, rest, chain⟩ := List.exists_cons_of_ne_nil chained.nonempty
  have chained' := (prependLoop_ok loop (Nat.le_refl _) chained).1
  rw [chain] at loop chained
  obtain ⟨q, rest', shape, inBounds, fits, spills⟩ := prependLoop_first loop (Nat.le_refl _) chained
  refine ⟨chained', ⟨_, _, rfl⟩, p, rest, q, rest', chain, shape, inBounds, fun enough => ?_, spills⟩
  obtain ⟨head, -, content⟩ := fits enough
  exact ⟨head, content.trans (by rw [List.take_length])⟩

/-- The packet is well formed, with the header in its first particle. -/
def Layer.Marked (layer : Layer) (pkt : Packet) (header : List UInt8) : Prop :=
  Chained pkt.particle ∧
    (header = [] ∧ layer.len pkt = 0 ∨ ∃ p rest, pkt.particle = p :: rest ∧ layer.Holds pkt header p)

omit [PacketPool σ] [UniformPool σ] in
theorem Layer.Marked.reads (marked : layer.Marked pkt header) : layer.Reads pkt header := by
  obtain ⟨-, ⟨rfl, none⟩ | ⟨p, rest, chain, holds⟩⟩ := marked
  · exact ⟨[], by rw [Layer.get_eq, if_pos none]; rfl, rfl⟩
  · exact holds.reads chain

omit [PacketPool σ] [UniformPool σ] in
/-- The header stays in a first particle that grows. -/
theorem Layer.Marked.step (marked : layer.Marked pkt header) (chained : Chained pkt'.particle)
    (off : layer.off pkt' = layer.off pkt) (len : layer.len pkt' = layer.len pkt)
    (grown : header ≠ [] → ∀ p rest, pkt.particle = p :: rest → ∃ p' rest' front back, pkt'.particle = p' :: rest' ∧
      p'.InBounds ∧ p'.head + front.length = p.head ∧ p'.content = front ++ p.content ++ back) :
    layer.Marked pkt' header := by
  by_cases empty : header = []
  · refine ⟨chained, Or.inl ⟨empty, len.trans ?_⟩⟩
    obtain ⟨-, ⟨-, none⟩ | ⟨p, rest, -, holds⟩⟩ := marked
    · exact none
    · rw [holds.len, empty, List.length_nil]
  · obtain ⟨-, ⟨none, -⟩ | ⟨p, rest, chain, holds⟩⟩ := marked
    · exact absurd none empty
    · obtain ⟨p', rest', front, back, chain', inBounds, start, content⟩ := grown empty p rest chain
      exact ⟨chained, Or.inr ⟨p', rest', chain', holds.grown inBounds start content off len⟩⟩

theorem Layer.Marked.prepend {pkt'' : Packet} (marked : layer.Marked pkt header)
    (fits : header = [] ∨ ∃ room, pkt.headroom = .ok room ∧ bytes.length ≤ room)
    (run : pkt.prepend pool bytes = .ok (true, pkt', pool')) (chain : pkt''.particle = pkt'.particle)
    (off : layer.off pkt'' = layer.off pkt') (len : layer.len pkt'' = layer.len pkt') :
    layer.Marked pkt'' header := by
  obtain ⟨chained, ⟨_, _, record⟩, p, rest, q, rest', old, new, inBounds, within, -⟩ := prepend_first marked.1 run
  have sameOff : layer.off pkt' = layer.off pkt := by
    rw [record]
    cases layer <;> rfl
  have sameLen : layer.len pkt' = layer.len pkt := by
    rw [record]
    cases layer <;> rfl
  refine marked.step (chain ▸ chained) (off.trans sameOff) (len.trans sameLen) fun some p₀ rest₀ old₀ => ?_
  obtain ⟨rfl, -⟩ := List.cons.inj (old.symm.trans old₀)
  obtain ⟨room, headroom, enough⟩ := fits.resolve_left some
  rw [Packet.headroom, Packet.first, old] at headroom
  cases Except.ok.inj headroom
  obtain ⟨head, content⟩ := within enough
  exact ⟨q, rest', bytes, [], chain.trans new, inBounds, by omega, by rw [content, List.append_nil]⟩

omit [PacketPool σ] [UniformPool σ] in
theorem Layer.Marked.extends {total : Nat} (marked : layer.Marked pkt header) (chained : Chained chain')
    (grown : ∀ p rest, pkt.particle = p :: rest → ∃ p' rest', chain' = p' :: rest' ∧ p.Extends p') :
    layer.Marked { pkt with particle := chain', length := total } header := by
  refine marked.step chained (by cases layer <;> rfl) (by cases layer <;> rfl) fun _ p rest chain => ?_
  obtain ⟨p', rest', shape, extended⟩ := grown p rest chain
  obtain ⟨back, content⟩ := extended.content
  exact ⟨p', rest', [], back, shape, extended.inBounds, extended.head, content.symm⟩

theorem Layer.Marked.append (marked : layer.Marked pkt header)
    (run : pkt.append pool bytes = .ok (true, pkt', pool')) :
    layer.Marked pkt' header := by
  obtain ⟨chain', total, loop, _, rfl⟩ := grown_done run
  refine marked.extends (appendLoop_ok loop marked.1).1 fun p rest chain => ?_
  rw [chain] at loop
  exact appendLoop_first loop (chain ▸ marked.1)

omit [PacketPool σ] [UniformPool σ] in
theorem Layer.Marked.moveTail {mv : Int} (marked : layer.Marked pkt header) (forward : 0 ≤ mv)
    (run : pkt.moveTail mv = .ok (mv, pkt')) : layer.Marked pkt' header := by
  obtain ⟨⟨got, chain'⟩, moved, run⟩ := Except.bind_ok_iff.mp run
  have grown : ∀ p rest, pkt.particle = p :: rest → Chained chain' ∧ ∃ p' rest', chain' = p' :: rest' ∧
      p.Extends p' := by
    intro p rest chain
    rw [chain] at moved
    exact withLast_first moved (chain ▸ marked.1) fun q q' inBounds at_q =>
      Particle.moveTail_extends inBounds forward (Except.ok.inj at_q)
  obtain ⟨p, rest, chain⟩ := List.exists_cons_of_ne_nil marked.1.nonempty
  have chained := (grown p rest chain).1
  dsimp only at run
  split at run
  · cases Except.ok.inj run
    exact marked.extends chained fun p rest chain => (grown p rest chain).2
  · cases Except.ok.inj run
    exact marked.extends chained fun p rest chain => (grown p rest chain).2

/-- Every call that is allowed and fits keeps the header. -/
theorem Layer.Marked.call {c : Call} (marked : layer.Marked pkt header) (allowed : layer.Allows c)
    (fits : header = [] ∨ c.Fits pkt) (run : c.Succeeds pkt pool pkt' pool') : layer.Marked pkt' header := by
  cases c with
  | prepend bytes => exact marked.prepend fits run rfl rfl rfl
  | append bytes => exact marked.append run
  | pushL2 bytes =>
    cases layer with
    | l2 => exact allowed.elim
    | l3 =>
      obtain ⟨pkt₁, p, prepended, _, rfl⟩ :=
        pushed_done (fun q p => { q with l2 := p.head, l2Len := bytes.length }) run
      exact marked.prepend fits prepended rfl rfl rfl
  | pushL3 bytes =>
    cases layer with
    | l3 => exact allowed.elim
    | l2 =>
      obtain ⟨pkt₁, p, prepended, _, rfl⟩ :=
        pushed_done (fun q p => { q with l3 := p.head, l3Len := bytes.length }) run
      exact marked.prepend fits prepended rfl rfl rfl
  | pullL2 n => cases layer <;> exact allowed.elim
  | pullL3 n => cases layer <;> exact allowed.elim
  | moveTail mv =>
    have forward : 0 ≤ mv := by cases layer <;> exact allowed
    exact marked.moveTail forward run.1

theorem Later.marked (later : Later σ layer pkt header pkt') (marked : layer.Marked pkt header) :
    layer.Marked pkt' header := by
  induction later with
  | start => exact marked
  | call _ allowed fits run ih => exact ih.call allowed fits run

/-- The bytes are pushed into one particle: the first one, or a new one when that is full. -/
def Whole (pkt : Packet) (pool : σ) (bytes : List UInt8) : Prop :=
  ∃ room, pkt.headroom = .ok room ∧
    (bytes.length ≤ room ∨ room = 0 ∧ bytes.length ≤ PacketPool.particleSz pool)

omit [PacketPool σ] [UniformPool σ] in
theorem Layer.set_marked {n : Nat} (chained : Chained pkt.particle) (run : layer.set pkt n = .ok (true, pkt')) :
    layer.Marked pkt' (pkt.content.take n) ∧ (pkt.content.take n).length = n := by
  obtain ⟨p, rest, chain⟩ := List.exists_cons_of_ne_nil chained.nonempty
  have inBounds : p.InBounds := chained.inBounds p (by rw [chain]; exact List.mem_cons_self ..)
  have size := Particle.content_length inBounds
  obtain ⟨enough, chain', off, len⟩ : n ≤ p.len ∧ pkt'.particle = p :: rest ∧ layer.off pkt' = p.head ∧
      layer.len pkt' = n := by
    cases layer with
    | l2 =>
      rw [set, setL2, Packet.first, chain, Except.ok_bind] at run
      split at run
      · cases Except.ok.inj run
        exact ⟨‹_›, rfl, rfl, rfl⟩
      · cases Except.ok.inj run
    | l3 =>
      rw [set, setL3, Packet.first, chain, Except.ok_bind] at run
      split at run
      · cases Except.ok.inj run
        exact ⟨‹_›, rfl, rfl, rfl⟩
      · cases Except.ok.inj run
  have head : pkt.content.take n = p.content.take n := by
    rw [content, chain, chainContent_cons, List.take_append_of_le_length (by omega)]
  have length : (p.content.take n).length = n := by
    rw [List.length_take]
    omega
  rw [head]
  refine ⟨⟨chain' ▸ (chain ▸ chained),
    Or.inr ⟨p, rest, chain', ⟨inBounds, Nat.le_of_eq off.symm, len.trans length.symm, ?_⟩⟩⟩, length⟩
  rw [off, Nat.sub_self, List.drop_zero, length]

omit [UniformPool σ] in
/-- What `push_l2` and `push_l3` do: a `prepend`, and the header begins at the head. -/
theorem Layer.push_run (run : layer.push pkt pool bytes = .ok (true, pkt', pool')) : ∃ pkt₁ p,
    pkt.prepend pool bytes = .ok (true, pkt₁, pool') ∧ pkt₁.first = .ok p ∧ pkt'.particle = pkt₁.particle ∧
    layer.off pkt' = p.head ∧ layer.len pkt' = bytes.length := by
  cases layer with
  | l2 =>
    obtain ⟨pkt₁, p, prepended, first, rfl⟩ :=
      pushed_done (fun q p => { q with l2 := p.head, l2Len := bytes.length }) run
    exact ⟨pkt₁, p, prepended, first, rfl, rfl, rfl⟩
  | l3 =>
    obtain ⟨pkt₁, p, prepended, first, rfl⟩ :=
      pushed_done (fun q p => { q with l3 := p.head, l3Len := bytes.length }) run
    exact ⟨pkt₁, p, prepended, first, rfl, rfl, rfl⟩

/-- A header pushed into one particle is there to be read. -/
theorem Layer.push_marked (chained : Chained pkt.particle) (run : layer.push pkt pool bytes = .ok (true, pkt', pool'))
    (whole : Whole pkt pool bytes) : layer.Marked pkt' bytes := by
  obtain ⟨pkt₁, q, prepended, first, chain, off, len⟩ := layer.push_run run
  obtain ⟨chained', -, p, rest, _, rest', old, new, inBounds, fits, spills⟩ := prepend_first chained prepended
  rw [Packet.first, new] at first
  cases Except.ok.inj first
  obtain ⟨room, headroom, enough⟩ := whole
  rw [Packet.headroom, Packet.first, old] at headroom
  cases Except.ok.inj headroom
  refine ⟨chain ▸ chained', Or.inr ⟨q, rest', chain.trans new, ⟨inBounds, Nat.le_of_eq off.symm, len, ?_⟩⟩⟩
  rw [off, Nat.sub_self, List.drop_zero]
  by_cases within : bytes.length ≤ p.head
  · rw [(fits within).2, List.take_left]
  · obtain ⟨zero, small⟩ := enough.resolve_left within
    rw [(spills (by omega)).2.2 (by omega), zero, Nat.sub_zero, List.take_length, List.take_length]

/-- A header that is split is not returned. -/
theorem Layer.push_split (chained : Chained pkt.particle) (run : layer.push pkt pool bytes = .ok (true, pkt', pool'))
    (split : ¬Whole pkt pool bytes) : layer.get pkt' = .ok ([], 0) := by
  obtain ⟨pkt₁, q, prepended, first, chain, off, len⟩ := layer.push_run run
  obtain ⟨-, -, p, rest, _, rest', old, new, inBounds, -, spills⟩ := prepend_first chained prepended
  rw [Packet.first, new] at first
  cases Except.ok.inj first
  have headroom : pkt.headroom = .ok p.head := by rw [Packet.headroom, Packet.first, old, Except.ok_bind]
  have short : p.head < bytes.length := Nat.lt_of_not_le fun fits => split ⟨p.head, headroom, Or.inl fits⟩
  obtain ⟨size, small, -⟩ := spills short
  have few : q.raw.length - q.head < bytes.length := by
    by_cases zero : p.head = 0
    · have large : PacketPool.particleSz pool < bytes.length :=
        Nat.lt_of_not_le fun fits => split ⟨p.head, headroom, Or.inr ⟨zero, fits⟩⟩
      omega
    · omega
  rw [get_eq, len]
  by_cases empty : bytes.length = 0
  · rw [if_pos empty]
  · rw [if_neg empty, Packet.first, chain, new, Except.ok_bind]
    dsimp only
    rw [off, Particle.dataRaw]
    split
    · exact if_pos (Nat.pos_of_ne_zero empty)
    · rw [if_pos (by rw [List.length_drop]; exact few)]

/-- A header set on the first bytes of a packet, or pushed into one particle,
is returned after all later calls that fit in front of the first particle; a
pushed header that is split between particles is not returned at all. -/
theorem headers_stay_valid (layer : Layer) (chained : Chained pkt.particle) :
    (∀ n pkt', layer.set pkt n = .ok (true, pkt') → (pkt.content.take n).length = n ∧
      ∀ q, Later σ layer pkt' (pkt.content.take n) q → layer.Reads q (pkt.content.take n)) ∧
    ∀ (pool pool' : σ) bytes pkt', bytes ≠ [] → layer.push pkt pool bytes = .ok (true, pkt', pool') →
      (layer.Reads pkt' bytes ↔ Whole pkt pool bytes) ∧
      (Whole pkt pool bytes → ∀ q, Later σ layer pkt' bytes q → layer.Reads q bytes) := by
  refine ⟨fun n pkt' run => ?_, fun pool pool' bytes pkt' some run => ⟨⟨fun reads => ?_, fun whole => ?_⟩,
    fun whole q later => ?_⟩⟩
  · obtain ⟨marked, length⟩ := layer.set_marked chained run
    exact ⟨length, fun q later => (later.marked marked).reads⟩
  · by_contra split
    obtain ⟨d, returned, -⟩ := reads
    have same := (Prod.mk.inj (Except.ok.inj (returned.symm.trans (layer.push_split chained run split)))).2
    exact some (List.length_eq_zero_iff.mp same)
  · exact (layer.push_marked chained run whole).reads
  · exact (later.marked (layer.push_marked chained run whole)).reads

end Runs

/-- One particle of four bytes is left. -/
def spareHeap : PktsHeap := ⟨0, [], [⟨21, [8, 8, 8, 8], 0, 4, by decide⟩], 4, by decide⟩

/-- A `prepend` that needs a new particle moves a header that was set before it,
and a pushed header that spills into a new particle is never returned. -/
theorem headers_lost : (shortPacket 0 (by decide)).Sound ∧ (shortPacket 2 (by decide)).Sound ∧
    (∃ pkt pkt' pool', (shortPacket 0 (by decide)).setL3 2 = .ok (true, pkt) ∧
      pkt.prepend spareHeap [1] = .ok (true, pkt', pool') ∧ (shortPacket 0 (by decide)).content.take 2 = [9, 9] ∧
      pkt'.getL3 = .ok ([8, 8, 8, 1], 2) ∧ ¬Layer.l3.Reads pkt' [9, 9]) ∧
    ∃ pkt pool', (shortPacket 2 (by decide)).pushL3 spareHeap [1, 2, 3] = .ok (true, pkt, pool') ∧
      pkt.getL3 = .ok ([], 0) ∧ ¬Layer.l3.Reads pkt [1, 2, 3] := by
  refine ⟨shortPacket_sound _ _, shortPacket_sound _ _, ⟨_, _, _, rfl, rfl, rfl, rfl, ?_⟩, _, _, rfl, rfl, ?_⟩
  · rintro ⟨d, read, bytes⟩
    obtain ⟨rfl, -⟩ := Prod.mk.inj (Except.ok.inj read)
    exact absurd bytes (by decide)
  · rintro ⟨d, read, -⟩
    obtain ⟨-, length⟩ := Prod.mk.inj (Except.ok.inj read)
    exact absurd length (by decide)

/-- A header of one byte, and another one pushed in front of it. -/
theorem headers_stay_valid_pushed : ∃ pkt pool' pkt' pool'',
    Layer.l3.push (shortPacket 2 (by decide)) spareHeap [4] = .ok (true, pkt, pool') ∧
    pkt.pushL2 pool' [3] = .ok (true, pkt', pool'') ∧ Layer.l3.Reads pkt' [4] := by
  obtain ⟨pkt, pool', pkt', pool'', pushed, before, headroom⟩ : ∃ pkt pool' pkt' pool'',
      Layer.l3.push (shortPacket 2 (by decide)) spareHeap [4] = .ok (true, pkt, pool') ∧
      pkt.pushL2 pool' [3] = .ok (true, pkt', pool'') ∧ pkt.headroom = .ok 1 := ⟨_, _, _, _, rfl, rfl, rfl⟩
  have whole : Whole (shortPacket 2 (by decide)) spareHeap [4] := ⟨2, rfl, Or.inl (by decide)⟩
  have fits : ([4] : List UInt8) = [] ∨ (Call.pushL2 [3]).Fits pkt := Or.inr ⟨1, headroom, by decide⟩
  have allowed : Layer.l3.Allows (.pushL2 [3]) := trivial
  have later : Later PktsHeap .l3 pkt [4] pkt' := .call .start allowed fits before
  have valid := (headers_stay_valid .l3 (shortPacket_sound 2 (by decide)).chained).2 _ _ _ _ (by decide) pushed
  exact ⟨pkt, pool', pkt', pool'', pushed, before, valid.2 whole _ later⟩

end Packet

end R2
