import Tessera.Proofs.Emitting

/-!
# Where the operands stand

The tensors of a program and its output are placed one behind the other, so they share
no byte. Before a run memory holds every tensor where it was placed and zeros in the
output region, and what is stored leaves the tensors alone.

* `Tensor.Stands`: a tensor is placed at an object.
* `Spread`: objects one behind the other; `Spread.apart`: they share no byte.
* `allocate_laid`: the objects of a layout.
* `image_eq`: the memory before a run.
* `Stands.readsRows`, `Stands.readsColumns`: memory reads as the blocks of a tensor.
-/

namespace Tessera

/-- A tensor is placed at an object: the addresses of its blocks lead to them. -/
structure Tensor.Stands (t : Tensor) (o : Placed) (origin divisor : UInt64) : Prop where
  size : o.size = UInt64.ofNat t.sizes.sum
  same : o.blocks.size = t.blocks.size
  logical : origin + o.logical * divisor = o.physical
  block : ∀ (n : Int) l, o.block n = .ok l →
    origin + l * divisor = o.physical + UInt64.ofNat (t.offset n.toNat)
  physical : ∀ (n : Nat) a, o.blocks[n]? = some a → a.physical = o.physical + UInt64.ofNat (t.offset n)

/-- Objects one behind the other, between two distances from `start`. -/
def Spread (start : UInt64) (lo : Nat) : List Placed → Nat → Prop
  | [], hi => lo ≤ hi
  | o :: os, hi => ∃ mid, lo ≤ mid ∧ o.Between start lo mid ∧ Spread start mid os hi

namespace Spread

variable {start : UInt64} {lo mid hi : Nat} {os os' : List Placed}

theorem le (h : Spread start lo os hi) : lo ≤ hi := by
  induction os generalizing lo with
  | nil => exact h
  | cons o os ih =>
    obtain ⟨mid, hle, -, hrest⟩ := h
    exact le_trans hle (ih hrest)

theorem append (h : Spread start lo os mid) (h' : Spread start mid os' hi) :
    Spread start lo (os ++ os') hi := by
  induction os generalizing lo with
  | nil =>
    have hle : lo ≤ mid := h
    cases os' with
    | nil => exact le_trans hle h'
    | cons o os' =>
      obtain ⟨k, hk, ⟨off, hoff, hsize, hphys⟩, hrest⟩ := h'
      exact ⟨k, by omega, ⟨off, by omega, hsize, hphys⟩, hrest⟩
  | cons o os ih =>
    obtain ⟨k, hk, ho, hrest⟩ := h
    exact ⟨k, hk, ho, ih hrest⟩

/-- Every object stands between the two distances. -/
theorem between (h : Spread start lo os hi) {o : Placed} (ho : o ∈ os) : o.Between start lo hi := by
  induction os generalizing lo with
  | nil => cases ho
  | cons p os ih =>
    obtain ⟨k, hk, ⟨off, hoff, hsize, hphys⟩, hrest⟩ := h
    rcases List.mem_cons.1 ho with rfl | ho
    · exact ⟨off, hoff, le_trans hsize hrest.le, hphys⟩
    · obtain ⟨off, hoff, hsize, hphys⟩ := ih hrest ho
      exact ⟨off, by omega, hsize, hphys⟩

/-- **Objects one behind the other share no byte.** -/
theorem apart (h : Spread start lo os hi) (hsmall : hi < 18446744073709551616) :
    os.Pairwise fun o o' => o.Apart o' ∧ o'.Apart o := by
  induction os generalizing lo with
  | nil => exact .nil
  | cons o os ih =>
    obtain ⟨k, hk, ho, hrest⟩ := h
    refine .cons (fun o' ho' => ?_) (ih hrest)
    exact ho.apart (hrest.between ho') le_rfl hsmall

end Spread

/-- The place of a tensor that may be missing. -/
def Tensor.Housed (origin divisor : UInt64) (t : Option Tensor) (o : Option Placed) : Prop :=
  (t = none ∧ o = none) ∨ ∃ t' o', t = some t' ∧ o = some o' ∧ t'.Stands o' origin divisor

/-- A memory after objects were placed that are not called `other`. -/
structure Memory.Grows (m m' : Memory) (start : UInt64) (lo hi : Nat) (other : String)
    (os : List Placed) : Prop where
  spread : Spread start lo os hi
  cursor : m'.cursor = start + UInt64.ofNat hi
  origin : m'.origin = m.origin
  divisors : m'.divisors = m.divisors
  names : ∀ o ∈ m'.placed, o ∈ m.placed ∨ o.name ≠ other

theorem Memory.Grows.trans {m m' m'' : Memory} {start : UInt64} {lo mid hi : Nat} {other : String}
    {os os' : List Placed} (h : m.Grows m' start lo mid other os)
    (h' : m'.Grows m'' start mid hi other os') : m.Grows m'' start lo hi other (os ++ os') where
  spread := h.spread.append h'.spread
  cursor := h'.cursor
  origin := h'.origin.trans h.origin
  divisors := h'.divisors.trans h.divisors
  names o ho := by
    rcases h'.names o ho with hm | hn
    · exact h.names o hm
    · exact Or.inr hn

theorem Memory.Adds.grows {m m' : Memory} {o : Placed} {bytes lo : Nat} {start : UInt64}
    {other : String} (h : m.Adds m' o bytes) (hm : m.cursor = start + UInt64.ofNat lo)
    (hbytes : bytes < 1152921504606846976) (hname : o.name ≠ other) :
    ∃ hi < lo + 1152921504607000000, m.Grows m' start lo hi other [o] := by
  obtain ⟨hi, hlt, hbetween, hcursor, hle⟩ := h.between hm (by omega)
  refine ⟨hi, by omega, ⟨hi, hle, hbetween, le_rfl⟩, hcursor, h.origin, h.divisors, fun p hp => ?_⟩
  rw [h.objects] at hp
  rcases List.mem_cons.1 hp with rfl | hp
  · exact Or.inr hname
  · exact Or.inl hp

/-- Placing a tensor. -/
theorem placeTensor_grows {m m' : Memory} {name : String} (other : String) {r : Region}
    {t : Option Tensor} {o : Option Placed} (h : Layout.placeTensor m name r t = .ok (o, m'))
    (hd : (m.divisor r).toNat ≤ 65536)
    (ht : ∀ t', t = some t' → t'.scalar.Supported ∧ t'.sizes.sum < 1152921504606846976)
    (hname : name ≠ other) {start : UInt64} {lo : Nat} (hm : m.cursor = start + UInt64.ofNat lo) :
    Tensor.Housed m.origin (m.divisor r) t o ∧
      ∃ hi < lo + 1152921504607000000, m.Grows m' start lo hi other o.toList := by
  cases t with
  | none =>
    obtain ⟨rfl, rfl⟩ := Prod.mk.inj (Except.ok.inj h)
    exact ⟨Or.inl ⟨rfl, rfl⟩, lo, by omega, le_rfl, hm, rfl, rfl, fun o ho => Or.inl ho⟩
  | some t =>
    obtain ⟨hs, hsize⟩ := ht t rfl
    unfold Layout.placeTensor at h
    simp only at h
    rw [Tensor.blockSizes_eq hs, Outcome.ok_bind] at h
    obtain ⟨⟨o', m1⟩, hplace, h⟩ := Outcome.bind_eq_ok.1 h
    obtain ⟨rfl, rfl⟩ := Prod.mk.inj (Outcome.pure_eq_ok.1 h)
    obtain ⟨hadds, ⟨hblocks, hblock⟩, rfl, rfl⟩ := Memory.place_adds hd (Memory.granted_eq_ok.1 hplace)
    refine ⟨Or.inr ⟨t, o', rfl, rfl, hadds.size, ?_, hadds.logical, fun n l hl => ?_,
      fun n a ha => ?_⟩, hadds.grows hm hsize hname⟩
    · rw [hblocks, Tensor.sizes, List.length_map, Array.length_toList]
    · obtain ⟨h0, a, ha, rfl⟩ := Placed.block_eq_ok hl
      obtain ⟨l, hl, heq⟩ := hblock n.toNat (by
        rw [← hblocks]
        exact (Array.getElem?_eq_some_iff.1 ha).1)
      rw [ha] at hl
      cases hl
      exact heq
    · obtain ⟨l, hl, -⟩ := hblock n (by
        rw [← hblocks]
        exact (Array.getElem?_eq_some_iff.1 ha).1)
      rw [ha] at hl
      cases hl
      rfl

/-- The output region has `units` units of `unit` bytes, `b` to a block. -/
structure Placed.Receives (out : Placed) (origin divisor : UInt64) (b unit units : Nat) : Prop where
  size : out.size = UInt64.ofNat (units * unit)
  start : origin + out.logical * divisor = out.physical
  block : ∀ (n : Nat) l, out.block n = .ok l →
    origin + l * divisor = out.physical + UInt64.ofNat (n * b * unit)
  physical : ∀ (n : Nat) a, out.blocks[n]? = some a →
    a.physical = out.physical + UInt64.ofNat (n * b * unit)

/-- The units of the output region of a schedule. -/
def Schedule.units (s : Schedule) (d : Shaped) (b : Nat) : Nat :=
  match s.storeGrain with
  | .block => d.c.blocks.size * b
  | .vector => s.stored.length

/-- The blocks of a tensor of full blocks. -/
theorem Tensor.sizes_full {t : Tensor} {b : Nat} (hfull : ∀ k ∈ t.blocks.toList, k.Full b) :
    t.sizes = List.replicate t.blocks.size (b * b * t.scalar.width) := by
  rw [sizes, List.eq_replicate_iff]
  refine ⟨by simp, fun n hn => ?_⟩
  obtain ⟨k, hk, rfl⟩ := List.mem_map.1 hn
  rw [(hfull k hk).2]

/-- Placing the output. -/
theorem placeOutput_grows {m m' : Memory} {d : Shaped} {s : Schedule} {o : Option Placed}
    (other : String) {b : Nat} (h : Layout.placeOutput m d s = .ok (o, m'))
    (hd : (m.divisor .out).toNat ≤ 65536) (hb : d.b = b) (hs : d.c.scalar.Supported)
    (hfull : ∀ k ∈ d.c.blocks.toList, k.Full b)
    (hsmall : s.units d b * (b * d.c.scalar.width) < 1152921504606846976)
    (hname : "OUT" ≠ other) {start : UInt64} {lo : Nat} (hm : m.cursor = start + UInt64.ofNat lo) :
    ∃ out, o = some out ∧
      out.Receives m.origin (m.divisor .out) b (b * d.c.scalar.width) (s.units d b) ∧
      (s.storeGrain = .block → out.blocks.size = d.c.blocks.size) ∧
      ∃ hi < lo + 1152921504607000000, m.Grows m' start lo hi other [out] := by
  unfold Layout.placeOutput at h
  unfold Schedule.units at hsmall ⊢
  cases hg : s.storeGrain with
  | block =>
    rw [hg] at h hsmall
    simp only at h hsmall ⊢
    have hsum : d.c.sizes.sum = d.c.blocks.size * b * (b * d.c.scalar.width) := by
      rw [Tensor.sizes_full hfull, List.sum_replicate_nat]
      ring
    obtain ⟨hhouse, hgrows⟩ := placeTensor_grows other h hd
      (fun t ht => by cases ht; exact ⟨hs, by rw [hsum]; exact hsmall⟩) hname hm
    obtain ⟨hnone, -⟩ | ⟨t, out, ht, rfl, hstands⟩ := hhouse
    · cases hnone
    cases ht
    have hoffset : ∀ n < d.c.blocks.size, d.c.offset n = n * b * (b * d.c.scalar.width) := by
      intro n hn
      rw [Tensor.offset, Tensor.sizes_full hfull, List.take_replicate, List.sum_replicate_nat,
        Nat.min_eq_left (by omega)]
      ring
    refine ⟨out, rfl, ⟨by rw [hstands.size, hsum], hstands.logical, fun n l hl => ?_,
      fun n a ha => ?_⟩, fun _ => hstands.same, hgrows⟩
    · obtain ⟨-, a, ha, -⟩ := Placed.block_eq_ok hl
      have hlt := (Array.getElem?_eq_some_iff.1 ha).1
      rw [hstands.same, Int.toNat_natCast] at hlt
      rw [hstands.block n l hl, Int.toNat_natCast, hoffset n hlt]
    · have hlt := (Array.getElem?_eq_some_iff.1 ha).1
      rw [hstands.same] at hlt
      rw [hstands.physical n a ha, hoffset n hlt]
  | vector =>
    rw [hg] at h hsmall
    simp only at h hsmall ⊢
    rw [hs.bytes, Outcome.ok_bind, hb] at h
    have hw := hs.width_pos
    have hle : s.stored.length * b ≤ s.stored.length * (b * d.c.scalar.width) :=
      Nat.mul_le_mul_left _ (Nat.le_mul_of_pos_right b hw.1)
    rw [show (s.stored.length : Int) * b = ((s.stored.length * b : Nat) : Int) by push_cast; rfl,
      wrap64_small (x := ((s.stored.length * b : Nat) : Int)) (by omega) (by omega),
      show ((s.stored.length * b : Nat) : Int) * d.c.scalar.width =
        ((s.stored.length * (b * d.c.scalar.width) : Nat) : Int) by push_cast; ring,
      wrap64_small (by omega) (by omega)] at h
    obtain ⟨⟨out, m1⟩, hres, h⟩ := Outcome.bind_eq_ok.1 h
    obtain ⟨rfl, rfl⟩ := Prod.mk.inj (Outcome.pure_eq_ok.1 h)
    obtain ⟨hadds, hout, hregion, hempty⟩ := Memory.reserve_adds hd (Memory.granted_eq_ok.1 hres)
    have hlogical := hadds.logical
    rw [hregion] at hlogical
    refine ⟨out, rfl, ⟨hadds.size, hlogical, fun n l hl => ?_, fun n a ha => ?_⟩,
      (fun hblock => by cases hblock), hadds.grows hm hsmall (by rw [hout]; exact hname)⟩
    · obtain ⟨-, a, ha, -⟩ := Placed.block_eq_ok hl
      rw [hempty] at ha
      simp at ha
    · rw [hempty] at ha
      simp at ha

/-- The tensors of a program have types to compute with and are not too large. -/
structure Shaped.Placeable (d : Shaped) (s : Schedule) (b : Nat) : Prop where
  side : d.b = b
  tensor : ∀ t, d.a = some t ∨ d.w = some t ∨ d.x = t ∨ d.y = some t →
    t.scalar.Supported ∧ t.sizes.sum < 1152921504606846976
  scalar : d.c.scalar.Supported
  full : ∀ k ∈ d.c.blocks.toList, k.Full b
  small : s.units d b * (b * d.c.scalar.width) < 1152921504606846976

/-- The objects of a layout, in order. -/
def Layout.objects (l : Layout) : List Placed :=
  l.inp.toList ++ l.wgt.toList ++ l.acc.toList ++ l.accBis.toList ++ l.out.toList

/-- A layout: where each tensor stands, and the memory after it. -/
structure Layout.Laid (l : Layout) (d : Shaped) (s : Schedule) (b : Nat) (m m' : Memory) : Prop where
  inp : Tensor.Housed m.origin (m.divisor .inp) d.a l.inp
  wgt : Tensor.Housed m.origin (m.divisor .wgt) d.w l.wgt
  acc : Tensor.Housed m.origin (m.divisor .acc) (some d.x) l.acc
  accBis : Tensor.Housed m.origin (m.divisor .acc) d.y l.accBis
  out : ∃ out, l.out = some out ∧
    out.Receives m.origin (m.divisor .out) b (b * d.c.scalar.width) (s.units d b) ∧
    (s.storeGrain = .block → out.blocks.size = d.c.blocks.size)
  grows : ∃ hi < 9223372036854775808, m.Grows m' m.cursor 0 hi "UOP" l.objects

/-- The first accumulator has its place in every layout. -/
theorem Layout.Laid.acc_some {l : Layout} {d : Shaped} {s : Schedule} {b : Nat} {m m' : Memory}
    (h : l.Laid d s b m m') : ∃ acc, l.acc = some acc := by
  obtain ⟨hnone, -⟩ | ⟨-, acc, -, hacc, -⟩ := h.acc
  · cases hnone
  · exact ⟨acc, hacc⟩

/-- A layout places one tensor after the other, and the output behind them. -/
theorem Layout.allocate_eq_ok {m m' : Memory} {d : Shaped} {s : Schedule} {l : Layout} :
    Layout.allocate m d s = .ok (l, m') ↔ ∃ m1 m2 m3 m4,
      placeTensor m "INP" .inp d.a = .ok (l.inp, m1) ∧
      placeTensor m1 "WGT" .wgt d.w = .ok (l.wgt, m2) ∧
      placeTensor m2 "ACC" .acc (some d.x) = .ok (l.acc, m3) ∧
      placeTensor m3 "ACC_BIS" .acc d.y = .ok (l.accBis, m4) ∧
      placeOutput m4 d s = .ok (l.out, m') := by
  unfold allocate
  simp only [Outcome.bind_eq_ok, Outcome.pure_eq_ok, Prod.exists]
  constructor
  · rintro ⟨inp, m1, h1, wgt, m2, h2, acc, m3, h3, accBis, m4, h4, out, m5, h5, h⟩
    obtain ⟨rfl, rfl⟩ := Prod.mk.inj h
    exact ⟨m1, m2, m3, m4, h1, h2, h3, h4, h5⟩
  · rintro ⟨m1, m2, m3, m4, h1, h2, h3, h4, h5⟩
    exact ⟨_, m1, h1, _, m2, h2, _, m3, h3, _, m4, h4, _, m', h5, rfl⟩

/-- **The tensors of a program stand one behind the other.** -/
theorem allocate_laid {m m' : Memory} {d : Shaped} {s : Schedule} {l : Layout} {b : Nat}
    (h : Layout.allocate m d s = .ok (l, m')) (hd : ∀ r, (m.divisor r).toNat ≤ 65536)
    (hp : d.Placeable s b) : l.Laid d s b m m' := by
  obtain ⟨m1, m2, m3, m4, h1, h2, h3, h4, h5⟩ := Layout.allocate_eq_ok.1 h
  have hsame : ∀ {m' : Memory} (r : Region), m'.divisors = m.divisors → m'.divisor r = m.divisor r := by
    intro m' r heq
    rw [Memory.divisor, heq, Memory.divisor]
  obtain ⟨hinp, n1, hn1, g1⟩ := placeTensor_grows "UOP" h1 (hd _)
    (fun t ht => hp.tensor t (Or.inl ht)) (by decide)
    (show m.cursor = m.cursor + UInt64.ofNat 0 by simp)
  have d1 := g1.divisors
  obtain ⟨hwgt, n2, hn2, g2⟩ := placeTensor_grows "UOP" h2 (by rw [hsame _ d1]; exact hd _)
    (fun t ht => hp.tensor t (Or.inr (Or.inl ht))) (by decide) g1.cursor
  have d2 := g2.divisors.trans d1
  obtain ⟨hacc, n3, hn3, g3⟩ := placeTensor_grows "UOP" h3 (by rw [hsame _ d2]; exact hd _)
    (fun t ht => hp.tensor t (Or.inr (Or.inr (Or.inl (Option.some.inj ht))))) (by decide) g2.cursor
  have d3 := g3.divisors.trans d2
  obtain ⟨hbis, n4, hn4, g4⟩ := placeTensor_grows "UOP" h4 (by rw [hsame _ d3]; exact hd _)
    (fun t ht => hp.tensor t (Or.inr (Or.inr (Or.inr ht)))) (by decide) g3.cursor
  have d4 := g4.divisors.trans d3
  obtain ⟨o, ho, hout, hblocks, n5, hn5, g5⟩ := placeOutput_grows "UOP" h5
    (by rw [hsame _ d4]; exact hd _) hp.side hp.scalar hp.full hp.small (by decide) g4.cursor
  rw [g1.origin, hsame _ d1] at hwgt
  rw [g2.origin, g1.origin, hsame _ d2] at hacc
  rw [g3.origin, g2.origin, g1.origin, hsame _ d3] at hbis
  rw [g4.origin, g3.origin, g2.origin, g1.origin, hsame _ d4] at hout
  refine ⟨hinp, hwgt, hacc, hbis, ⟨o, ho, hout, hblocks⟩, n5, by omega, ?_⟩
  unfold Layout.objects
  rw [ho]
  exact (((g1.trans g2).trans g3).trans g4).trans g5

/-- A tensor with the object that holds it. -/
def housedPair (q : Option Tensor × Option Placed) : Option (Tensor × Placed) :=
  q.1.bind fun t => q.2.map fun o => (t, o)

/-- The tensors and objects that memory is set up with. -/
def Layout.operands (l : Layout) (d : Shaped) : List (Tensor × Placed) :=
  [(d.a, l.inp), (d.w, l.wgt), (some d.x, l.acc), (d.y, l.accBis)].filterMap housedPair

/-- The bytes of a tensor. -/
def Tensor.content (t : Tensor) (b : Nat) : List UInt8 :=
  (t.blocks.toList.map fun k => rowBytes t.scalar (t.numbers b k)).flatten

theorem Tensor.length_content {t : Tensor} {b : Nat} (h : t.Writable b) :
    (t.content b).length = t.sizes.sum := by
  rw [content, List.length_flatten, List.map_map, sizes]
  congr 1
  refine List.map_congr_left fun k hk => ?_
  rw [Function.comp_apply, length_rowBytes h.2.1, length_numbers h hk]

/-- Memory with tensors written where they stand. -/
def written (b : Nat) (ops : List (Tensor × Placed)) (mem : UInt64 → UInt8) : UInt64 → UInt8 :=
  ops.foldl (fun mem q => writeBytes mem q.2.physical (q.1.content b)) mem

/-- An object has room for the bytes of its tensor, and no more. -/
def Placed.Fitted (b : Nat) (q : Tensor × Placed) : Prop :=
  (q.1.content b).length = q.2.size.toNat

/-- What lies outside all objects is left alone. -/
theorem written_outside {b : Nat} {ops : List (Tensor × Placed)} (hfit : ∀ q ∈ ops, Placed.Fitted b q)
    {a : UInt64} (ha : ∀ q ∈ ops, q.2.size.toNat ≤ (a - q.2.physical).toNat)
    (mem : UInt64 → UInt8) : written b ops mem a = mem a := by
  induction ops generalizing mem with
  | nil => rfl
  | cons q ops ih =>
    have hq := hfit q List.mem_cons_self
    have := ih (fun r hr => hfit r (List.mem_cons_of_mem _ hr))
      (fun r hr => ha r (List.mem_cons_of_mem _ hr)) (writeBytes mem q.2.physical (q.1.content b))
    refine this.trans (writeBytes_outside ?_)
    rw [hq]
    exact ha q List.mem_cons_self

/-- **Tensors written one after the other** are all there in the end, if their objects
share no byte. -/
theorem written_holds {b : Nat} {ops : List (Tensor × Placed)} (hfit : ∀ q ∈ ops, Placed.Fitted b q)
    (hapart : ops.Pairwise fun q q' => q.2.Apart q'.2) (mem : UInt64 → UInt8) :
    ∀ q ∈ ops, HoldsBytes (written b ops mem) q.2.physical (q.1.content b) := by
  induction ops generalizing mem with
  | nil => simp
  | cons q ops ih =>
    obtain ⟨hq, hrest⟩ := List.pairwise_cons.1 hapart
    intro r hr i hi
    rcases List.mem_cons.1 hr with rfl | hr
    · have hsize := hfit r List.mem_cons_self
      have hlt := r.2.size.toNat_lt
      have := written_outside (fun q' hq' => hfit q' (List.mem_cons_of_mem _ hq'))
        (a := r.2.physical + UInt64.ofNat i)
        (fun q' hq' => hq q' hq' i (by unfold Placed.Fitted at hsize; omega))
        (writeBytes mem r.2.physical (r.1.content b))
      refine this.trans (writeBytes_inside hi ?_)
      rw [hsize]
      norm_num at hlt
      omega
    · exact ih (fun q' hq' => hfit q' (List.mem_cons_of_mem _ hq')) hrest _ r hr i hi

/-- The memory before a run is made of the operands. -/
theorem image_eq {r : Compiled} {b : Nat} (hb : 1 ≤ b) (hb' : b ≤ 64)
    (hhouse : ∀ q ∈ [(r.data.a, r.layout.inp), (r.data.w, r.layout.wgt),
      (some r.data.x, r.layout.acc), (r.data.y, r.layout.accBis)], ∀ t, q.1 = some t →
        t.Writable b ∧ ∃ o, q.2 = some o) :
    r.image = .ok (written b (r.layout.operands r.data) fun _ => 0) := by
  unfold Compiled.image Layout.operands written
  generalize hqs : [(r.data.a, r.layout.inp), (r.data.w, r.layout.wgt),
    (some r.data.x, r.layout.acc), (r.data.y, r.layout.accBis)] = qs at hhouse ⊢
  clear hqs
  generalize (fun _ => 0 : UInt64 → UInt8) = mem
  induction qs generalizing mem with
  | nil => rfl
  | cons q qs ih =>
    obtain ⟨t, o⟩ := q
    have hrest := ih fun q hq => hhouse q (List.mem_cons_of_mem _ hq)
    rw [List.foldlM_cons]
    cases t with
    | none =>
      rw [List.filterMap_cons_none rfl]
      exact hrest mem
    | some t =>
      obtain ⟨hw, o', rfl⟩ := hhouse _ List.mem_cons_self t rfl
      rw [List.filterMap_cons_some (show housedPair (some t, some o') = some (t, o') from rfl),
        List.foldl_cons]
      simp only [Tensor.bytes_eq hb hb' hw, Outcome.ofOption, Outcome.ok_bind]
      exact hrest _

namespace Tensor.Stands

variable {t : Tensor} {o : Placed} {m : Machine} {mem : UInt64 → UInt8} {size : Int}

/-- **Memory that holds a tensor reads as its blocks**, row by row. -/
theorem readsRows (h : t.Stands o m.origin (UInt64.ofInt size)) {p : Machine.Data}
    (hp : ∀ u, m.unitRow mem p (some u) = Machine.numbers mem t.scalar m.b (m.address size u))
    (hsize : UInt64.ofInt size = UInt64.ofNat (m.b * t.scalar.width)) (hb : 1 ≤ m.b) (hb' : m.b ≤ 64)
    (hw : t.Writable m.b) (hfit : t.Fits) (hrole : t.role ≠ .wgt)
    (hfew : t.blocks.size < 72057594037927936)
    (hheight : ∀ k ∈ t.blocks.toList, 0 ≤ k.height ∧ k.height ≤ m.b ∧
      k.data.size = k.height.toNat * m.b)
    (hmem : HoldsBytes mem o.physical (t.content m.b)) : m.ReadsRows mem p o t where
  few := hfew
  same := h.same
  height k hk := ⟨(hheight k hk).1, (hheight k hk).2.1, (hheight k hk).2.2.le⟩
  row n k l hk hl r hr := by
    have hholds : o.Holds mem t := ⟨_, bytes_eq hb hb' hw, hmem⟩
    have hblock := h.block n l hl
    rw [hsize] at hblock
    have hdata := (hheight k (List.mem_of_getElem? (by simpa using hk))).2.2
    rw [hp, Machine.address_add hsize hblock]
    refine hholds.row hb hb' hw hfit hrole hk ?_
    rw [hdata]
    exact Nat.mul_le_mul_right _ (by omega)

/-- **Memory that holds a weight tensor reads as its blocks**, column by column. -/
theorem readsColumns (h : t.Stands o m.origin (UInt64.ofInt size))
    (hsize : m.divisors.wgt = size) (hscalar : t.scalar = m.wgt)
    (hb : 1 ≤ m.b) (hb' : m.b ≤ 64) (hw : t.Writable m.b) (hfit : t.Fits) (hrole : t.role = .wgt)
    (hfew : t.blocks.size < 72057594037927936)
    (hmem : HoldsBytes mem o.physical (t.content m.b)) : m.ReadsColumns mem o (some t) := by
  intro n l hl
  obtain ⟨h0, a, ha, -⟩ := Placed.block_eq_ok hl
  have hlt := (Array.getElem?_eq_some_iff.1 ha).1
  rw [h.same] at hlt
  obtain ⟨k, hk⟩ : ∃ k, t.blocks[n.toNat]? = some k := ⟨_, Array.getElem?_eq_getElem hlt⟩
  have hholds : o.Holds mem t := ⟨_, bytes_eq hb hb' hw, hmem⟩
  refine ⟨by omega, ?_⟩
  show Machine.numbers mem m.wgt (m.b * m.b) (m.address m.divisors.wgt l) = _
  rw [Machine.address, hsize, h.block n l hl, ← hscalar, blockOf, Option.bind_some, hk,
    Option.getD_some]
  exact hholds.columns hb hb' hw hfit hrole hk

end Tensor.Stands

/-- Writing to one object leaves the bytes in others alone. -/
theorem HoldsBytes.writeBytes {mem : UInt64 → UInt8} {o out : Placed} {bytes new : List UInt8}
    (h : HoldsBytes mem o.physical bytes) (hlen : bytes.length ≤ o.size.toNat)
    (hapart : o.Apart out) {off : Nat} (hoff : off + new.length ≤ out.size.toNat) :
    HoldsBytes (writeBytes mem (out.physical + UInt64.ofNat off) new) o.physical bytes := by
  intro i hi
  rw [writeBytes_outside, h i hi]
  have hfar := hapart i (by omega)
  have hlt := out.size.toNat_lt
  -- the distance from the start of the object is at least its size
  set a := o.physical + UInt64.ofNat i
  have ha := a.toNat_lt
  have hp := out.physical.toNat_lt
  rw [UInt64.toNat_sub] at hfar
  rw [UInt64.toNat_sub, toNat_add_ofNat]
  norm_num at hlt ha hp hfar ⊢
  omega

/-- Copies that are written into the output region leave other objects alone. -/
theorem HoldsBytes.deposit {m : Machine} {mem : UInt64 → UInt8} {o out : Placed} {bytes : List UInt8}
    (h : HoldsBytes mem o.physical bytes) (hlen : bytes.length ≤ o.size.toNat)
    (hapart : o.Apart out) {pos : Int → Nat} {units : Nat} (hout : m.out.Supported)
    (hsize : units * m.unit ≤ out.size.toNat) {cells : List (Int × Row)}
    (hcells : ∀ q ∈ cells, pos q.1 < units ∧ q.2.length = m.b) :
    HoldsBytes (m.deposit out pos cells mem) o.physical bytes := by
  induction cells generalizing mem with
  | nil => exact h
  | cons q cells ih =>
    obtain ⟨hpos, hrow⟩ := hcells q List.mem_cons_self
    refine ih (h.writeBytes hlen hapart ?_) fun r hr => hcells r (List.mem_cons_of_mem _ hr)
    have := Nat.mul_le_mul_right m.unit (show pos q.1 + 1 ≤ units by omega)
    rw [add_mul, one_mul] at this
    rw [Machine.copyBytes, length_rowBytes hout, List.length_map, hrow]
    unfold Machine.unit at *
    omega

end Tessera
