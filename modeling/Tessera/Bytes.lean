import Tessera.Power

/-!
# Bytes and pieces of lists

* `littleEndian`: the low bytes of an integer, least significant first.
* `ofLittleEndian`: the number some bytes stand for.
* `chunks`: a list cut into pieces of a given length, the last one shorter.
-/

namespace Tessera

/-- The low `n` bytes of `v`, least significant first; a negative number has
the bytes of its two's complement. -/
def littleEndian (n : Nat) (v : Int) : List UInt8 :=
  (List.range n).map fun i => UInt8.ofNat ((v / (twoTo (8 * i) : Int)) % 256).toNat

/-- The number the bytes stand for, least significant first. -/
def ofLittleEndian (bytes : List UInt8) : Nat :=
  bytes.foldr (fun b n => b.toNat + 256 * n) 0

/-- Cuts a list into pieces: `done` holds the finished ones and `current` the
one in work, both latest first, and `room` is what still fits into it. -/
def chunksFrom {α : Type} (n : Nat) (done : List (List α)) (current : List α) (room : Nat) :
    List α → List (List α)
  | [] => (if current.isEmpty then done else current.reverse :: done).reverse
  | x :: xs =>
    match room with
    | 0 => chunksFrom n (current.reverse :: done) [x] (n - 1) xs
    | room + 1 => chunksFrom n done (x :: current) room xs

/-- The consecutive pieces of `n` elements, the last one shorter if it has to be. -/
def chunks {α : Type} (n : Nat) (xs : List α) : List (List α) := chunksFrom n [] [] n xs

end Tessera
