namespace BxToolchain.Digest

def roundConstants : List UInt64 :=
  [0x0000000000000001,0x0000000000008082,0x800000000000808a,0x8000000080008000,
   0x000000000000808b,0x0000000080000001,0x8000000080008081,0x8000000000008009,
   0x000000000000008a,0x0000000000000088,0x0000000080008009,0x000000008000000a,
   0x000000008000808b,0x800000000000008b,0x8000000000008089,0x8000000000008003,
   0x8000000000008002,0x8000000000000080,0x000000000000800a,0x800000008000000a,
   0x8000000080008081,0x8000000000008080,0x0000000080000001,0x8000000080008008]

def rotations : Array UInt64 :=
  #[0,1,62,28,27,36,44,6,55,20,3,10,43,25,39,41,45,15,21,8,18,2,61,56,14]

def rotateLeft (x n : UInt64) : UInt64 :=
  if n = 0 then x else (x <<< n) ||| (x >>> (64 - n))

abbrev Words := Array UInt64

def word (a : Words) (x y : Nat) : UInt64 := a.getD (x % 5 + 5 * (y % 5)) 0

def ofWords (f : Nat → Nat → UInt64) : Words :=
  (Array.range 25).map fun i => f (i % 5) (i / 5)

def mixColumns (a : Words) : Words :=
  let column (x : Nat) := word a x 0 ^^^ word a x 1 ^^^ word a x 2 ^^^ word a x 3 ^^^ word a x 4
  ofWords fun x y => word a x y ^^^ column (x + 4) ^^^ rotateLeft (column (x + 1)) 1

def turnAndMove (a : Words) : Words :=
  ofWords fun x y =>
    let from' := x + 3 * y
    rotateLeft (word a from' x) (word rotations from' x)

def mixRows (a : Words) : Words :=
  ofWords fun x y => word a x y ^^^ ((word a (x + 1) y ^^^ 0xffffffffffffffff) &&& word a (x + 2) y)

def round (a : Words) (constant : UInt64) : Words :=
  let b := mixRows (turnAndMove (mixColumns a))
  b.setIfInBounds 0 (word b 0 0 ^^^ constant)

def permute (a : Words) : Words := roundConstants.foldl round a

def rate : Nat := 136

def wordOfBytes (bytes : List UInt8) : UInt64 :=
  bytes.foldr (fun b acc => (acc <<< 8) ||| b.toUInt64) 0

def absorb (a : Words) (block : List UInt8) : Words :=
  permute (a.mapIdx fun i w =>
    if 8 * i < rate then w ^^^ wordOfBytes ((block.drop (8 * i)).take 8) else w)

def padded (input : List UInt8) : List UInt8 :=
  let gap := rate - input.length % rate
  if gap = 1 then input ++ [0x9f]
  else input ++ [0x1f] ++ List.replicate (gap - 2) 0 ++ [0x80]

def absorbAll : Nat → Words → List UInt8 → Words
  | 0, a, _ => a
  | blocks + 1, a, input => absorbAll blocks (absorb a (input.take rate)) (input.drop rate)

def shake256 (input : List UInt8) (size : Nat) : List UInt8 :=
  let input := padded input
  let a := absorbAll (input.length / rate) (Array.replicate 25 0) input
  let bytes := a.toList.flatMap fun (w : UInt64) =>
    (List.range 8).map fun i => (w >>> (8 * i.toUInt64)).toUInt8
  bytes.take (min size rate)

end BxToolchain.Digest
