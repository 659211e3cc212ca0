import SharedLog.Bytes

/-!
The 64-bit hash XXH64 of a byte string under a seed. Input of 32 bytes or more is mixed into four lanes,
one stripe of 32 bytes at a time; what is left is mixed in by words of eight bytes, then four, then one.
-/

namespace SharedLog.Hash.XXH64

/-- The five primes of the hash. -/
def prime1 : UInt64 := 11400714785074694791

/-- See `prime1`. -/
def prime2 : UInt64 := 14029467366897019727

/-- See `prime1`. -/
def prime3 : UInt64 := 1609587929392839161

/-- See `prime1`. -/
def prime4 : UInt64 := 9650029242287828579

/-- See `prime1`. -/
def prime5 : UInt64 := 2870177450012600261

/-- Rotate left by `k` bits, for `0 < k < 64`. -/
def rotl (x : UInt64) (k : UInt64) : UInt64 := (x <<< k) ||| (x >>> (64 - k))

/-- Mix one word into a lane. -/
def round (lane input : UInt64) : UInt64 := rotl (lane + input * prime2) 31 * prime1

/-- The four lanes that stripes are mixed into. -/
structure Lanes where
  v1 : UInt64
  v2 : UInt64
  v3 : UInt64
  v4 : UInt64

/-- The lanes before the first stripe. -/
def Lanes.start (seed : UInt64) : Lanes := ⟨seed + prime1 + prime2, seed + prime2, seed, seed - prime1⟩

/-- Mix in one stripe of 32 bytes. -/
def Lanes.stripe (v : Lanes) (bytes : Bytes) : Lanes where
  v1 := round v.v1 (Bytes.toWord (bytes.take 8))
  v2 := round v.v2 (Bytes.toWord ((bytes.drop 8).take 8))
  v3 := round v.v3 (Bytes.toWord ((bytes.drop 16).take 8))
  v4 := round v.v4 (Bytes.toWord ((bytes.drop 24).take 8))

/-- Mix in all whole stripes; what remains is shorter than a stripe. -/
def Lanes.stripes (v : Lanes) (bytes : Bytes) : Lanes × Bytes :=
  if 32 ≤ bytes.length then (v.stripe bytes).stripes (bytes.drop 32) else (v, bytes)
termination_by bytes.length
decreasing_by simp only [List.length_drop]; omega

/-- Bring the lanes together. -/
def Lanes.merge (v : Lanes) : UInt64 :=
  [v.v1, v.v2, v.v3, v.v4].foldl (fun h lane => (h ^^^ round 0 lane) * prime1 + prime4)
    (rotl v.v1 1 + rotl v.v2 7 + rotl v.v3 12 + rotl v.v4 18)

/-- Mix in what is left after the stripes. -/
def rest (h : UInt64) (bytes : Bytes) : UInt64 :=
  if 8 ≤ bytes.length then
    rest (rotl (h ^^^ round 0 (Bytes.toWord (bytes.take 8))) 27 * prime1 + prime4) (bytes.drop 8)
  else if 4 ≤ bytes.length then
    rest (rotl (h ^^^ Bytes.toWord (bytes.take 4) * prime1) 23 * prime2 + prime3) (bytes.drop 4)
  else
    bytes.foldl (fun h b => rotl (h ^^^ b.toUInt64 * prime5) 11 * prime1) h
termination_by bytes.length
decreasing_by all_goals simp only [List.length_drop]; omega

/-- Let every bit of the state reach every bit of the result. -/
def avalanche (h : UInt64) : UInt64 :=
  let h := (h ^^^ (h >>> 33)) * prime2
  let h := (h ^^^ (h >>> 29)) * prime3
  h ^^^ (h >>> 32)

/-- The hash of a byte string. -/
def hash (seed : UInt64) (bytes : Bytes) : UInt64 :=
  let (lanes, remaining) := (Lanes.start seed).stripes bytes
  let h := if 32 ≤ bytes.length then lanes.merge else seed + prime5
  avalanche (rest (h + UInt64.ofNat bytes.length) remaining)

/-- The published hash of the empty string under seed 0. -/
example : hash 0 [] = 0xef46db3751d8e999 := by decide +kernel

end SharedLog.Hash.XXH64
