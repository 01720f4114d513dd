import PacketFec.Bytes
import PacketFec.Field
import PacketFec.Geometry

/-!
# The erasure code

The shards of a group stand at the points `0, 1, 2, …` of the field of 256 elements. Byte position by byte
position, the data shards are the values at the first `D` points of one polynomial of degree below `D`, and
the parity shards are its values at the points behind. Such a polynomial is fixed by its values at any `D`
points, so any `D` shards of a group give back all the others.

* `Code.interpolate`: the value of that polynomial at a further point.
* `Code.parity`: the parity shards of a full group.
* `Code.restore`: the missing data shards of a group of which enough is left.

Both refuse shards of no length, of unequal lengths, or in a wrong number.
-/

namespace PacketFec.Code

/-- The product of the differences between `x` and the points other than `p`. -/
def span (points : List UInt8) (p x : UInt8) : UInt8 :=
  points.foldl (fun acc q => if q = p then acc else Field.mul acc (Field.add x q)) 1

/-- The weight of the value at `p` in the value at `x`, of a polynomial of degree below the number of
points: one at `p` and zero at the other points. -/
def weight (points : List UInt8) (p x : UInt8) : UInt8 :=
  Field.mul (span points p x) (Field.inv (span points p p))

/-- A shard with a multiple of another one added, up to the end of the shorter one. -/
def addScaled (w : UInt8) : Bytes → Bytes → Bytes
  | s :: shard, a :: acc => Field.add a (Field.mul w s) :: addScaled w shard acc
  | _, _ => []

theorem addScaled_eq_zipWith (w : UInt8) (shard acc : Bytes) :
    addScaled w shard acc = List.zipWith (fun s a => Field.add a (Field.mul w s)) shard acc := by
  induction shard generalizing acc with
  | nil => rfl
  | cons s shard ih =>
    cases acc with
    | nil => rfl
    | cons a acc => simp only [addScaled, List.zipWith_cons_cons, ih]

/-- The value at `x` of the polynomial with the given values, in each of `width` byte positions. -/
def interpolate (width : Nat) (values : List (UInt8 × Bytes)) (x : UInt8) : Bytes :=
  let points := values.map Prod.fst
  values.foldl (fun acc (p, shard) => addScaled (weight points p x) shard acc) (Bytes.zeros width)

/-- The point at which a shard stands. -/
def point (position : Nat) : UInt8 := UInt8.ofNat position

/-- Shards together with the points at which they stand, from a position on. -/
def stand : Nat → List Bytes → List (UInt8 × Bytes)
  | _, [] => []
  | position, shard :: rest => (point position, shard) :: stand (position + 1) rest

/-- The shards that are there, with the points at which they stand, from a position on. -/
def present : Nat → List (Option Bytes) → List (UInt8 × Bytes)
  | _, [] => []
  | position, some shard :: rest => (point position, shard) :: present (position + 1) rest
  | position, none :: rest => present (position + 1) rest

/-- The points of the shards that are not there, from a position on. -/
def missing : Nat → List (Option Bytes) → List UInt8
  | _, [] => []
  | position, some _ :: rest => missing (position + 1) rest
  | position, none :: rest => point position :: missing (position + 1) rest

/-- The common length of some shards, if they have one and it is not zero. -/
def commonLength? : List Bytes → Option Nat
  | [] => none
  | shard :: rest =>
    if shard.length ≠ 0 ∧ rest.all (·.length = shard.length) then some shard.length else none

/-- The parity of a group, computed from the slots of all its shards. What the parity slots hold does not
matter, but they must be there and as long as the data. -/
def parity (g : Geometry) (slots : List Bytes) : Option (List Bytes) :=
  if slots.length = g.total then
    (commonLength? slots).map fun width =>
      (List.range g.parity).map fun k =>
        interpolate width (stand 0 (slots.take g.data)) (point (g.data + k))
  else none

/-- The missing data shards of a group, in the order of their positions, computed from the first shards
that are there. -/
def restore (g : Geometry) (slots : List (Option Bytes)) : Option (List Bytes) :=
  let known := present 0 slots
  if slots.length = g.total ∧ g.data ≤ known.length then
    (commonLength? (known.map Prod.snd)).map fun width =>
      (missing 0 (slots.take g.data)).map (interpolate width (known.take g.data))
  else none

end PacketFec.Code
