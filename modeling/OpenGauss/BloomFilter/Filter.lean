import OpenGauss.Lib.WordSet
import Mathlib.Algebra.Ring.Nat

/-!
# Bloom filters over int8

A filter keeps a bit set, for every value added the positions its hash functions
gave, and optionally the least and greatest value. `includeDatum` asks for one
value, `includedIn` whether two filters can have a value in common. A filter can
be united with another one and sent as a `BloomFilterSet`.
-/

namespace OpenGauss.BloomFilter

open Lib

/-- `MAX_HASH_FUNCTIONS`: positions a `ValueBit` has room for -/
def maxHashFunctions : Nat := 4

/-- `STARTUP_ENTRIES` -/
def startupEntriesDefault : Nat := 500

/-- Thomas Wang's integer hash function; shifts to the right keep the sign. -/
def getLongHash (key : BitVec 64) : BitVec 64 :=
  let key := ~~~key + (key <<< 21)
  let key := key ^^^ key.sshiftRight 24
  let key := (key + (key <<< 3)) + (key <<< 8)
  let key := key ^^^ key.sshiftRight 14
  let key := (key + (key <<< 2)) + (key <<< 4)
  let key := key ^^^ key.sshiftRight 28
  key + (key <<< 31)

/-- The position the `i`-th hash function gives. -/
def position (numBits : Nat) (hash64 : BitVec 64) (i : Nat) : Nat :=
  let hash1 := hash64.setWidth 32
  let hash2 := (hash64 >>> 32).setWidth 32
  let combinedHash := hash1 + BitVec.ofNat 32 i * hash2
  (if combinedHash.msb then ~~~combinedHash else combinedHash).toNat % numBits

/-- What the constructor is called with, and the two sizes it computes from it in
floating point. -/
structure Capacity where
  expectedEntries : Nat
  optimalNumOfBits : Nat
  optimalNumOfHashFunctions : Nat
  entries_pos : 0 < expectedEntries
  entries_lt : expectedEntries < 10000000

/-- `BloomFilterImpl<int64>`. The array of `ValueBit`s is kept as the `uint16`
cells it consists of. -/
structure BloomFilterImpl where
  numBits : Nat
  numHashFunctions : Nat
  numValues : Nat
  maxNumValues : Nat
  startupEntries : Nat
  bitSet : Nat → BitVec 64
  valuePositions : Nat → Nat
  minValue : BitVec 64
  maxValue : BitVec 64
  addMinMax : Bool
  hasMM : Bool

def createBloomFilter (c : Capacity) (addMinMax : Bool) : BloomFilterImpl where
  numBits := c.optimalNumOfBits + (64 - c.optimalNumOfBits % 64)
  numHashFunctions := max 1 c.optimalNumOfHashFunctions
  numValues := 0
  maxNumValues := c.expectedEntries
  startupEntries := min c.expectedEntries startupEntriesDefault
  bitSet := fun _ => 0
  valuePositions := fun _ => 0
  minValue := 0
  maxValue := 0
  addMinMax := addMinMax
  hasMM := false

namespace BloomFilterImpl

variable (f : BloomFilterImpl)

def length : Nat := f.numBits / 64

def setMinMax (val : BitVec 64) : BloomFilterImpl :=
  if !f.hasMM then { f with minValue := val, maxValue := val, hasMM := true }
  else if val.slt f.minValue then { f with minValue := val }
  else if f.maxValue.slt val then { f with maxValue := val }
  else f

/-- The bits `addHash` sets. -/
def setBits (hash64 : BitVec 64) : Nat → BitVec 64 :=
  (List.range f.numHashFunctions).foldl
    (fun d i => WordSet.set d (position f.numBits hash64 (i + 1))) f.bitSet

/-- The cells `addHash` writes. -/
def setPositions (hash64 : BitVec 64) : Nat → Nat :=
  (List.range f.numHashFunctions).foldl
    (fun p i => Function.update p (maxHashFunctions * f.numValues + i)
      (position f.numBits hash64 (i + 1) % 2 ^ 16)) f.valuePositions

/-- The `ValueBit`s the array has once it has one for the next value. -/
def grownEntries : Nat :=
  if f.startupEntries ≤ f.numValues then min (f.startupEntries * 2) f.maxNumValues
  else f.startupEntries

/-- `none` when there are too many values, and when cells behind the array would be written:
of more than four positions the rest goes over the cells of the next value. -/
def addHash (hash64 : BitVec 64) : Option BloomFilterImpl :=
  if f.maxNumValues ≤ f.numValues then none
  else if maxHashFunctions * f.grownEntries <
      maxHashFunctions * f.numValues + f.numHashFunctions then none
  else some
    { f with
      startupEntries := f.grownEntries
      bitSet := f.setBits hash64
      valuePositions := f.setPositions hash64
      numValues := f.numValues + 1 }

def addDatum (val : BitVec 64) : Option BloomFilterImpl :=
  (if f.addMinMax then f.setMinMax val else f).addHash (getLongHash val)

/-- `none` when the sizes differ. -/
def unionAll (that : BloomFilterImpl) : Option BloomFilterImpl :=
  if f.numBits == that.numBits && f.numHashFunctions == that.numHashFunctions then
    some { f with
      bitSet := fun i => if i < f.length then f.bitSet i ||| that.bitSet i else f.bitSet i }
  else none

end BloomFilterImpl

structure BloomFilterSet where
  data : Nat → BitVec 64
  length : Nat
  numBits : Nat
  numHashFunctions : Nat
  numValues : Nat
  maxNumValues : Nat
  startupEntries : Nat
  valuePositions : Nat → Nat
  minIntValue : BitVec 64
  maxIntValue : BitVec 64
  addMinMax : Bool
  hasMM : Bool

def makeBloomFilterSet (f : BloomFilterImpl) : BloomFilterSet where
  data := fun i => if i < f.length then f.bitSet i else 0
  length := f.length
  numBits := f.numBits
  numHashFunctions := f.numHashFunctions
  numValues := f.numValues
  maxNumValues := f.maxNumValues
  startupEntries := f.startupEntries
  valuePositions := fun c =>
    if c < maxHashFunctions * f.startupEntries then f.valuePositions c else 0
  minIntValue := f.minValue
  maxIntValue := f.maxValue
  addMinMax := f.addMinMax
  hasMM := f.hasMM

def rebuildBloomFilterValue (b : BloomFilterSet) : BloomFilterImpl where
  numBits := b.numBits
  numHashFunctions := b.numHashFunctions
  numValues := b.numValues
  maxNumValues := b.maxNumValues
  startupEntries := b.startupEntries
  bitSet := b.data
  valuePositions := fun c =>
    if c < maxHashFunctions * b.startupEntries then b.valuePositions c else 0
  minValue := b.minIntValue
  maxValue := b.maxIntValue
  addMinMax := b.addMinMax
  hasMM := b.hasMM

/-- `Built f own united`: the filter comes from an empty one by adding the values
`own`; those in `united` were added to filters it was united with. -/
inductive Built : BloomFilterImpl → List (BitVec 64) → List (BitVec 64) → Prop
  | empty (c : Capacity) (addMinMax : Bool) : Built (createBloomFilter c addMinMax) [] []
  | add {f f' own united} (v : BitVec 64) (h : Built f own united)
      (hadd : f.addDatum v = some f') : Built f' (own ++ [v]) united
  | union {f g f' own united own' united'} (h : Built f own united) (h' : Built g own' united')
      (hunion : f.unionAll g = some f') : Built f' own (united ++ (own' ++ united'))
  | convert {f own united} (h : Built f own united) :
      Built (rebuildBloomFilterValue (makeBloomFilterSet f)) own united

end OpenGauss.BloomFilter
