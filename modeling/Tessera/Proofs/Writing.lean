import Tessera.Proofs.Crew
import Tessera.Proofs.Layouts

/-!
# Tensors written by workers

The bytes of a tensor are written block by block. Where a block goes is the running sum of the
sizes before it, and the work on a block is a task: it writes its numbers, byte by byte, into the
room between its place and the next. So workers may share the blocks and write them at the same
time: whatever turns they take, they leave the bytes of the tensor behind.

* `Tensor.places`, `Writing`, `Tensor.writing`: where blocks go, a block in the course of being
  written, and the writing of a tensor as a job.
* `Tensor.Written`: what is known of the bytes of a block; `Tensor.writing_separated`: the
  tasks mind their own blocks.
* `Tensor.encodes`: all runs of all crews leave the bytes of the tensor.
-/

namespace Tessera

/-- The sums of a list so far: `start`, and what each number adds to it. -/
def runningSums (start : Int) : List Int → List Int
  | [] => [start]
  | size :: sizes => start :: runningSums (wrap64 (start + size)) sizes

/-- Bytes to write to, all of them zero: a fault for a negative number of them and for one beyond the
48-bit address space. -/
def freshBytes (n : Int) : Outcome (List UInt8) :=
  if 0 ≤ n ∧ n ≤ (twoTo 48 : Int) then .ok (List.replicate n.toNat 0) else .error .fault

/-- A block in the course of being written: where its next byte goes and where its room ends, whether
its bytes have left the room for memory of their own, the bytes left of the number at hand, and the
numbers to come. -/
structure Writing where
  place : Nat
  stop : Nat
  away : Bool := false
  bytes : List UInt8 := []
  numbers : List Int

/-- The next byte is written, or the next number is taken up: the bytes leave the room for good
when a number does not fit it. -/
def Writing.act (s : Scalar) (out : List UInt8) (w : Writing) : Option (List UInt8 × Writing) :=
  match w.bytes, w.numbers with
  | byte :: bytes, _ =>
    some (if w.away then out else out.set w.place byte, { w with place := w.place + 1, bytes })
  | [], v :: numbers =>
    some (out, { w with
      away := w.away || decide (w.stop < w.place + (s.bytesOf v).length)
      bytes := s.bytesOf v
      numbers })
  | [], [] => none

namespace Tensor

/-- Where each block goes, and where the last one ends. -/
def places (t : Tensor) : Outcome (Array Int) :=
  return (runningSums 0 (← t.blockSizes)).toArray

/-- The writing of a tensor into `room` bytes, with its blocks at the given places: a task for each
block, which starts at the block's place and has room up to the next. -/
def writing (t : Tensor) (places : Array Int) (room : Int) : Job (List UInt8) Writing where
  start i := do
    let k ← entry t.blocks i
    let data ← if t.role = .wgt then transposed k.data t.b else pure k.data
    let place ← entry places i
    let stop ← entry places (wrap64 (i + 1))
    if 0 ≤ place ∧ place ≤ stop ∧ stop ≤ room then
      return { place := place.toNat, stop := stop.toNat, numbers := data.toList }
    else .error .fault
  act := Writing.act t.scalar

/-- **The workers write `bytes`** for a tensor, whatever turns they take. -/
def Encodes (t : Tensor) (w : Option Workers) (bytes : List UInt8) : Prop :=
  ∃ places room out, t.places = .ok places ∧ entry places t.size = .ok room ∧
    freshBytes room = .ok out ∧
    (t.writing places room).Computes t.size (Workers.hands w t.size) out bytes

end Tensor

section Sums

theorem runningSums_eq (start : Nat) (sizes : List Nat)
    (hsmall : start + sizes.sum < 9223372036854775808) :
    runningSums start (sizes.map Int.ofNat) =
      (List.range (sizes.length + 1)).map fun i => ((start + (sizes.take i).sum : Nat) : Int) := by
  induction sizes generalizing start with
  | nil => rfl
  | cons size sizes ih =>
    rw [List.sum_cons] at hsmall
    have hsum : wrap64 ((start : Int) + Int.ofNat size) = ((start + size : Nat) : Int) := by
      rw [Int.ofNat_eq_natCast, ← Nat.cast_add]
      exact wrap64_small (by omega) (by omega)
    rw [List.map_cons, runningSums, hsum, ih (start + size) (by omega), List.length_cons,
      List.range_succ_eq_map (n := sizes.length + 1), List.map_cons, List.map_map]
    simp [Nat.add_assoc]

end Sums

/-- Some bytes stand in others from a place on. -/
def StandsAt (out : List UInt8) (place : Nat) (bytes : List UInt8) : Prop :=
  ∀ j < bytes.length, out[place + j]? = bytes[j]?

namespace StandsAt

variable {out bytes : List UInt8} {place : Nat}

/-- A byte written behind them makes them longer. -/
theorem snoc (h : StandsAt out place bytes) (byte : UInt8) (hin : place + bytes.length < out.length) :
    StandsAt (out.set (place + bytes.length) byte) place (bytes ++ [byte]) := by
  intro j hj
  rw [List.length_append, List.length_singleton] at hj
  by_cases hlast : j = bytes.length
  · subst hlast
    rw [List.getElem?_set_self hin, List.getElem?_concat_length]
  · rw [List.getElem?_set_ne (by omega), List.getElem?_append_left (by omega)]
    exact h j (by omega)

/-- A byte written elsewhere leaves them alone. -/
theorem set (h : StandsAt out place bytes) {p : Nat} (hp : p < place ∨ place + bytes.length ≤ p)
    (byte : UInt8) : StandsAt (out.set p byte) place bytes := by
  intro j hj
  rw [List.getElem?_set_ne (by omega)]
  exact h j hj

/-- Bytes in which all parts stand one behind the other are these parts. -/
theorem eq_flatten {parts : List (List UInt8)} (hlen : out.length = parts.flatten.length)
    (h : ∀ (i : Nat) (part : List UInt8), parts[i]? = some part →
      StandsAt out ((parts.take i).map List.length).sum part) : out = parts.flatten := by
  induction parts generalizing out with
  | nil => exact List.eq_nil_of_length_eq_zero hlen
  | cons part parts ih =>
    rw [List.flatten_cons, List.length_append] at hlen
    have hfirst : out.take part.length = part := by
      refine List.ext_getElem? fun j => ?_
      by_cases hj : j < part.length
      · have := h 0 part rfl j hj
        rw [List.getElem?_take_of_lt hj]
        simpa using this
      · rw [List.getElem?_eq_none (by simp; omega), List.getElem?_eq_none (by omega)]
    have hrest : out.drop part.length = parts.flatten := by
      refine ih (by rw [List.length_drop]; omega) fun i part' hpart j hj => ?_
      have := h (i + 1) part' (by simpa using hpart) j hj
      rw [List.take_succ_cons, List.map_cons, List.sum_cons] at this
      rw [List.getElem?_drop, ← Nat.add_assoc]
      exact this
    calc out = out.take part.length ++ out.drop part.length := (List.take_append_drop _ _).symm
      _ = part ++ parts.flatten := by rw [hfirst, hrest]
      _ = (part :: parts).flatten := List.flatten_cons.symm

end StandsAt

namespace Tensor

variable {t : Tensor} {b i : Nat} {k : Block} {out out' : List UInt8}

theorem offset_le {j : Nat} (h : i ≤ j) : t.offset i ≤ t.offset j :=
  List.Sublist.sum_le_sum (List.take_sublist_take_left h) fun _ _ => Nat.zero_le _

theorem offset_size : t.offset t.blocks.size = t.sizes.sum := by
  rw [offset, List.take_of_length_le (by simp [sizes])]

/-- A block ends where the next one starts. -/
theorem offset_succ (hk : t.blocks[i]? = some k) :
    t.offset (i + 1) = t.offset i + k.data.size * t.scalar.width := by
  have hsize : t.sizes[i]? = some (k.data.size * t.scalar.width) := by
    rw [sizes, List.getElem?_map, Array.getElem?_toList, hk]
    rfl
  rw [offset, offset, List.take_add_one, hsize, List.sum_append]
  rfl

/-- The bytes of a block. -/
def part (t : Tensor) (b : Nat) (k : Block) : List UInt8 := rowBytes t.scalar (t.numbers b k)

theorem length_part (h : t.Writable b) (hk : t.blocks[i]? = some k) :
    t.offset i + (t.part b k).length = t.offset (i + 1) := by
  rw [offset_succ hk, part, length_rowBytes h.2.1,
    length_numbers h (List.mem_of_getElem? (by simpa using hk))]

/-- The offsets of the blocks, and where the last one ends. -/
def offsets (t : Tensor) : Array Int :=
  ((List.range (t.blocks.size + 1)).map fun i => (t.offset i : Int)).toArray

/-- The places of the blocks are their offsets. -/
theorem places_eq (hs : t.scalar.Supported) (hsmall : t.sizes.sum < 9223372036854775808) :
    t.places = .ok t.offsets := by
  have hsums := runningSums_eq 0 t.sizes (by omega)
  simp only [Nat.zero_add] at hsums
  have hlength : t.sizes.length = t.blocks.size := by simp [sizes]
  unfold places
  rw [blockSizes_eq hs, Outcome.ok_bind, ← Nat.cast_zero, hsums, hlength]
  rfl

theorem entry_offsets (hi : i ≤ t.blocks.size) : entry t.offsets i = .ok (t.offset i) := by
  unfold offsets
  rw [entry_eq_ok]
  refine ⟨by omega, ?_⟩
  rw [Int.toNat_natCast, List.getElem?_toArray, List.getElem?_map, List.getElem?_range (by omega)]
  rfl

/-- **A task starts** at the offset of its block, with the block's numbers to write. -/
theorem writing_start (hb : 1 ≤ b) (hb' : b ≤ 64) (h : t.Writable b)
    (hblocks : t.blocks.size < 9223372036854775807) (hk : t.blocks[i]? = some k) :
    (t.writing t.offsets t.sizes.sum).start i =
      .ok { place := t.offset i, stop := t.offset (i + 1), numbers := t.numbers b k } := by
  have hi : i < t.blocks.size := (Array.getElem?_eq_some_iff.1 hk).1
  have hblock : entry t.blocks i = .ok k := by
    rw [entry_eq_ok, Int.toNat_natCast]
    exact ⟨by omega, hk⟩
  have hdata : (if t.role = .wgt then transposed k.data t.b else pure k.data) =
      .ok (t.numbers b k).toArray := by
    unfold numbers
    split
    · rename_i hw
      rw [h.1, transposed_columns hb hb' (h.2.2 k (List.mem_of_getElem? (by simpa using hk)) hw)]
    · rfl
  have hstop : wrap64 ((i : Int) + 1) = ((i + 1 : Nat) : Int) := by
    rw [← Nat.cast_add_one]
    exact wrap64_small (by omega) (by omega)
  have hroom : (0 : Int) ≤ t.offset i ∧ (t.offset i : Int) ≤ t.offset (i + 1) ∧
      (t.offset (i + 1) : Int) ≤ t.sizes.sum := by
    have h1 := offset_le (t := t) (show i ≤ i + 1 by omega)
    have h2 := offset_le (t := t) (show i + 1 ≤ t.blocks.size by omega)
    rw [offset_size] at h2
    omega
  simp only [writing, hblock, hstop, entry_offsets (show i ≤ t.blocks.size by omega),
    entry_offsets (show i + 1 ≤ t.blocks.size by omega), Outcome.ok_bind, if_pos hroom,
    Int.toNat_natCast]
  rw [Outcome.ite_bind, hdata]
  rfl

/-- What is known of the bytes of block `i`: while it is written, those before the task's place
stand there, and what the task has left follows them; when the task is done, all of them do. -/
inductive Written (t : Tensor) (b i : Nat) (out : List UInt8) : Phase Writing → Prop
  | waiting : Written t b i out .waiting
  | running {k : Block} {w : Writing} (done : List UInt8) (hk : t.blocks[i]? = some k)
    (hplace : w.place = t.offset i + done.length) (hstop : w.stop = t.offset (i + 1))
    (haway : w.away = false)
    (hpart : t.part b k = done ++ (w.bytes ++ rowBytes t.scalar w.numbers))
    (hdone : StandsAt out (t.offset i) done) : Written t b i out (.running w)
  | done {k : Block} (hk : t.blocks[i]? = some k) (hdone : StandsAt out (t.offset i) (t.part b k)) :
    Written t b i out .done

end Tensor

/-- The steps that a task still takes: one for each byte, and one for each number. -/
def Writing.left (s : Scalar) (w : Writing) : Nat :=
  w.bytes.length + (w.numbers.map fun v => (s.bytesOf v).length + 1).sum

namespace Writing

variable {s : Scalar} {out out' : List UInt8} {w w' : Writing}

/-- **What an action does**: it writes a byte or takes up a number. -/
theorem act_cases (h : w.act s out = some (out', w')) :
    (∃ byte bytes, w.bytes = byte :: bytes ∧ out' = (if w.away then out else out.set w.place byte) ∧
      w' = { w with place := w.place + 1, bytes := bytes }) ∨
    ∃ v numbers, w.bytes = [] ∧ w.numbers = v :: numbers ∧ out' = out ∧
      w' = { w with
        away := w.away || decide (w.stop < w.place + (s.bytesOf v).length)
        bytes := s.bytesOf v
        numbers := numbers } := by
  obtain ⟨place, stop, away, bytes, numbers⟩ := w
  cases bytes with
  | cons byte bytes =>
    obtain ⟨rfl, rfl⟩ := Prod.mk.inj (Option.some.inj h)
    exact Or.inl ⟨byte, bytes, rfl, rfl, rfl⟩
  | nil =>
    cases numbers with
    | cons v numbers =>
      obtain ⟨rfl, rfl⟩ := Prod.mk.inj (Option.some.inj h)
      exact Or.inr ⟨v, numbers, rfl, rfl, rfl, rfl⟩
    | nil => cases h

/-- A task without a next action has written all. -/
theorem act_none (h : w.act s out = none) : w.bytes = [] ∧ w.numbers = [] := by
  obtain ⟨place, stop, away, bytes, numbers⟩ := w
  cases bytes with
  | cons byte bytes => cases h
  | nil =>
    cases numbers with
    | cons v numbers => cases h
    | nil => exact ⟨rfl, rfl⟩

theorem length_act (h : w.act s out = some (out', w')) : out'.length = out.length := by
  rcases act_cases h with ⟨byte, bytes, -, rfl, -⟩ | ⟨v, numbers, -, -, rfl, -⟩
  · split
    · rfl
    · exact List.length_set
  · rfl

theorem left_act (h : w.act s out = some (out', w')) : w'.left s < w.left s := by
  unfold left
  rcases act_cases h with ⟨byte, bytes, hbytes, -, rfl⟩ | ⟨v, numbers, hbytes, hnumbers, -, rfl⟩
  · rw [hbytes, List.length_cons]
    dsimp only
    omega
  · rw [hbytes, hnumbers, List.map_cons, List.sum_cons, List.length_nil]
    dsimp only
    omega

end Writing

namespace Tensor

variable {t : Tensor} {b i j : Nat} {out out' : List UInt8} {w w' : Writing}

/-- The action of a task leaves the room of its block, and what stands outside it. -/
theorem Written.act (h : t.Writable b) (hlen : out.length = t.sizes.sum)
    (hw : t.Written b i out (.running w)) (hact : w.act t.scalar out = some (out', w')) :
    t.Written b i out' (.running w') ∧
      (out' = out ∨ ∃ p byte, t.offset i ≤ p ∧ p < t.offset (i + 1) ∧ out' = out.set p byte) := by
  cases hw with
  | @running k w done hk hplace hstop haway hpart hdone =>
    have hend := length_part h hk
    rw [hpart, List.length_append, List.length_append] at hend
    rcases Writing.act_cases hact with ⟨byte, bytes, hbytes, rfl, rfl⟩ |
        ⟨v, numbers, hbytes, hnumbers, rfl, rfl⟩
    · -- a byte is written behind those done
      rw [hbytes, List.length_cons] at hend
      have hin : i + 1 ≤ t.blocks.size := (Array.getElem?_eq_some_iff.1 hk).1
      have hsize := offset_le (t := t) hin
      rw [offset_size, ← hlen] at hsize
      have hset : (if w.away then out else out.set w.place byte) =
          out.set (t.offset i + done.length) byte := by
        rw [haway, hplace]
        rfl
      rw [hset]
      refine ⟨.running _ hk ?_ hstop haway ?_ (hdone.snoc byte (by omega)),
        Or.inr ⟨_, byte, by omega, by omega, rfl⟩⟩
      · rw [hplace, List.length_append, List.length_singleton, Nat.add_assoc]
      · rw [hpart, hbytes, List.append_assoc]
        rfl
    · -- a number is taken up, for which there is room
      rw [hnumbers] at hpart hend
      have hfits : ¬w.stop < w.place + (t.scalar.bytesOf v).length := by
        rw [hbytes, rowBytes, List.flatMap_cons, List.length_append] at hend
        rw [hstop, hplace]
        omega
      refine ⟨.running done hk hplace hstop ?_ ?_ hdone, Or.inl rfl⟩
      · simp [haway, hfits]
      · rw [hpart, hbytes, rowBytes, List.flatMap_cons]
        rfl

/-- **A byte written to the room of one block** keeps what is known of all others. -/
theorem Written.keep (h : t.Writable b) {phase : Phase Writing} (hij : i ≠ j)
    (hw : t.Written b j out phase) {p : Nat} (hlo : t.offset i ≤ p) (hhi : p < t.offset (i + 1))
    (byte : UInt8) : t.Written b j (out.set p byte) phase := by
  -- rooms are apart
  have hapart : p < t.offset j ∨ t.offset (j + 1) ≤ p := by
    rcases Nat.lt_or_gt_of_ne hij with hlt | hlt
    · exact Or.inl (hhi.trans_le (offset_le hlt))
    · exact Or.inr ((offset_le hlt).trans hlo)
  cases hw with
  | waiting => exact .waiting
  | running done hk hplace hstop haway hpart hdone =>
    have hend := length_part h hk
    rw [hpart, List.length_append] at hend
    exact .running done hk hplace hstop haway hpart (hdone.set (by omega) byte)
  | done hk hdone =>
    have hend := length_part h hk
    exact .done hk (hdone.set (by omega) byte)

/-- **The tasks of writing a tensor mind their own blocks.** -/
theorem writing_separated (hb : 1 ≤ b) (hb' : b ≤ 64) (h : t.Writable b)
    (hblocks : t.blocks.size < 9223372036854775807) :
    (t.writing t.offsets t.sizes.sum).Separated t.size
      (fun i phase out => out.length = t.sizes.sum ∧ t.Written b i out phase)
      (Writing.left t.scalar) where
  begins := by
    rintro i out hi ⟨hlen, -⟩
    have hi : i < t.blocks.size := Int.ofNat_lt.1 hi
    have hk := Array.getElem?_eq_getElem hi
    refine ⟨_, writing_start hb hb' h hblocks hk, hlen, ?_⟩
    exact .running [] hk rfl rfl rfl rfl fun j hj => absurd hj (Nat.not_lt_zero j)
  acts := by
    rintro i out out' w w' ⟨hlen, hw⟩ hact
    exact ⟨(Writing.length_act hact).trans hlen, (hw.act h hlen hact).1⟩
  finishes := by
    rintro i out w ⟨hlen, hw⟩ hact
    obtain ⟨hbytes, hnumbers⟩ := Writing.act_none hact
    cases hw with
    | running done hk hplace hstop haway hpart hdone =>
      rw [hbytes, hnumbers, rowBytes, List.flatMap_nil, List.append_nil, List.append_nil] at hpart
      exact ⟨hlen, .done hk (hpart ▸ hdone)⟩
  keeps := by
    rintro i j out out' w w' phase hij ⟨hlen, hw⟩ hact ⟨-, hj⟩
    refine ⟨(Writing.length_act hact).trans hlen, ?_⟩
    obtain ⟨-, rfl | ⟨p, byte, hlo, hhi, rfl⟩⟩ := hw.act h hlen hact
    · exact hj
    · exact hj.keep h hij hlo hhi byte
  shrinks := fun _ _ _ _ => Writing.left_act

/-- When all blocks are written, their bytes are those of the tensor. -/
theorem content_of_done (h : t.Writable b) (hlen : out.length = t.sizes.sum)
    (hdone : ∀ i : Nat, i < t.blocks.size → t.Written b i out .done) : out = t.content b := by
  refine StandsAt.eq_flatten (by rw [hlen, ← length_content h]; rfl) fun i part hpart => ?_
  rw [List.getElem?_map, Option.map_eq_some_iff] at hpart
  obtain ⟨k, hk, rfl⟩ := hpart
  have hoffset : (((t.blocks.toList.map fun k => rowBytes t.scalar (t.numbers b k)).take i).map
      List.length).sum = t.offset i := by
    rw [offset, sizes, ← List.map_take, ← List.map_take, List.map_map]
    congr 1
    refine List.map_congr_left fun k hk => ?_
    rw [Function.comp_apply, length_rowBytes h.2.1, length_numbers h (List.mem_of_mem_take hk)]
  rw [Array.getElem?_toList] at hk
  rw [hoffset]
  cases hdone i (Array.getElem?_eq_some_iff.1 hk).1 with
  | done hk' hstands =>
    obtain rfl := Option.some.inj (hk.symm.trans hk')
    exact hstands

/-- **All runs of all crews leave the bytes of the tensor**: with any number of workers, whatever turns
they take, the writing comes to an end, no worker gets stuck, and the bytes are the same. -/
theorem encodes (hb : 1 ≤ b) (hb' : b ≤ 64) (h : t.Writable b)
    (hroom : t.sizes.sum ≤ 281474976710656) (hblocks : t.size ≤ 35184372088832)
    {workers : Option Workers} (hworkers : ∀ v ∈ workers, 0 < v.count) :
    t.Encodes workers (t.content b) := by
  have hcount : t.blocks.size ≤ 35184372088832 := by
    unfold Tensor.size at hblocks
    omega
  have hfresh : freshBytes t.sizes.sum = .ok (List.replicate t.sizes.sum 0) := by
    have hin : (0 : Int) ≤ t.sizes.sum ∧ (t.sizes.sum : Int) ≤ (twoTo 48 : Int) := by
      rw [show twoTo 48 = 281474976710656 from rfl]
      omega
    unfold freshBytes
    rw [if_pos hin, Int.toNat_natCast]
  have hlast := entry_offsets (t := t) le_rfl
  rw [offset_size] at hlast
  have hfew : t.size.toNat + Workers.hands workers t.size < 9223372036854775808 := by
    have hhands := Workers.hands_le workers t.size
    unfold Tensor.size at hhands ⊢
    omega
  obtain ⟨hbounded, hruns⟩ := (writing_separated hb hb' h (by omega)).crew
    (s := List.replicate t.sizes.sum 0) (fun i _ => ⟨List.length_replicate, .waiting⟩) hfew
    (Workers.hands_pos hworkers)
  refine ⟨_, _, _, places_eq h.2.1 (by omega), hlast, hfresh, hbounded,
    fun m crew hrun => (hruns m crew hrun).1, fun m crew hrun hover => ?_⟩
  obtain ⟨-, hdone⟩ := (hruns m crew hrun).2 hover
  have hlen : crew.shared.length = t.sizes.sum :=
    hrun.keeps (P := fun out => out.length = t.sizes.sum) List.length_replicate
      fun _ _ _ _ hact hlen => (Writing.length_act hact).trans hlen
  exact content_of_done h hlen fun i hi => (hdone i (Int.ofNat_lt.2 hi)).2

end Tensor

end Tessera
