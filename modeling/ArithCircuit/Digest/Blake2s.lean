import ArithCircuit.Number.BigEndian

/-!
# BLAKE2s with a digest of 32 bytes and no key
-/

namespace ArithCircuit.Blake2s

/-- The chaining value: eight words. -/
abbrev Chain := Vector UInt32 8

/-- A message block, or the working state of the rounds: sixteen words. -/
abbrev Block := Vector UInt32 16

def initial : Chain :=
  #v[0x6a09e667, 0xbb67ae85, 0x3c6ef372, 0xa54ff53a, 0x510e527f, 0x9b05688c, 0x1f83d9ab, 0x5be0cd19]

/-- The order in which each round takes the words of the message block. -/
def schedule : List (Vector (Fin 16) 16) := [
  #v[0, 1, 2, 3, 4, 5, 6, 7, 8, 9, 10, 11, 12, 13, 14, 15],
  #v[14, 10, 4, 8, 9, 15, 13, 6, 1, 12, 0, 2, 11, 7, 5, 3],
  #v[11, 8, 12, 0, 5, 2, 15, 13, 10, 14, 3, 6, 7, 1, 9, 4],
  #v[7, 9, 3, 1, 13, 12, 11, 14, 2, 6, 5, 10, 4, 0, 15, 8],
  #v[9, 0, 5, 7, 2, 4, 10, 15, 14, 1, 11, 12, 6, 8, 3, 13],
  #v[2, 12, 6, 10, 0, 11, 8, 3, 4, 13, 7, 5, 15, 14, 1, 9],
  #v[12, 5, 1, 15, 14, 13, 4, 10, 0, 7, 6, 3, 9, 2, 8, 11],
  #v[13, 11, 7, 14, 12, 1, 3, 9, 5, 0, 15, 4, 8, 6, 2, 10],
  #v[6, 15, 14, 9, 11, 3, 0, 8, 12, 2, 13, 7, 1, 4, 10, 5],
  #v[10, 2, 8, 4, 7, 6, 1, 5, 15, 11, 9, 14, 3, 12, 13, 0]]

def rotateRight (x count : UInt32) : UInt32 := (x >>> count) ||| (x <<< (32 - count))

/-- Mixes two words of the message into the words at `a`, `b`, `c` and `d`. -/
def mix (v : Block) (a b c d : Fin 16) (x y : UInt32) : Block :=
  let v := v.set a (v[a] + v[b] + x)
  let v := v.set d (rotateRight (v[d] ^^^ v[a]) 16)
  let v := v.set c (v[c] + v[d])
  let v := v.set b (rotateRight (v[b] ^^^ v[c]) 12)
  let v := v.set a (v[a] + v[b] + y)
  let v := v.set d (rotateRight (v[d] ^^^ v[a]) 8)
  let v := v.set c (v[c] + v[d])
  v.set b (rotateRight (v[b] ^^^ v[c]) 7)

/-- Mixes the columns and then the diagonals of the state. -/
def round (m : Block) (v : Block) (s : Vector (Fin 16) 16) : Block :=
  let v := mix v 0 4 8 12 m[s[0]] m[s[1]]
  let v := mix v 1 5 9 13 m[s[2]] m[s[3]]
  let v := mix v 2 6 10 14 m[s[4]] m[s[5]]
  let v := mix v 3 7 11 15 m[s[6]] m[s[7]]
  let v := mix v 0 5 10 15 m[s[8]] m[s[9]]
  let v := mix v 1 6 11 12 m[s[10]] m[s[11]]
  let v := mix v 2 7 8 13 m[s[12]] m[s[13]]
  mix v 3 4 9 14 m[s[14]] m[s[15]]

/-- Folds a block into the chaining value; `count` is the number of message bytes up to its end. -/
def compress (chain : Chain) (block : Block) (count : Nat) (last : Bool) : Chain :=
  let v : Block := chain ++ initial
  let v := v.set 12 (v[12] ^^^ UInt32.ofNat count)
  let v := v.set 13 (v[13] ^^^ UInt32.ofNat (count >>> 32))
  let v := if last then v.set 14 (v[14] ^^^ 0xffffffff) else v
  let v := schedule.foldl (round block) v
  Vector.ofFn fun i : Fin 8 => chain[i] ^^^ v[i.castAdd 8] ^^^ v[i.natAdd 8]

/-- Four bytes as a word, least significant first. -/
def wordLE (bytes : List UInt8) : UInt32 :=
  bytes.foldr (fun byte word => byte.toUInt32 ||| (word <<< 8)) 0

/-- The words of at most 64 bytes, the missing ones zero. -/
def blockOf (bytes : List UInt8) : Block :=
  Vector.ofFn fun i : Fin 16 => wordLE ((bytes.drop (4 * i)).take 4)

/-- Takes `full` blocks of 64 bytes and then what is left as the last one. -/
def absorb : (full : Nat) → Chain → (count : Nat) → List UInt8 → Chain
  | 0, chain, count, rest => compress chain (blockOf rest) (count + rest.length) true
  | full + 1, chain, count, rest =>
    absorb full (compress chain (blockOf (rest.take 64)) (count + 64) false) (count + 64)
      (rest.drop 64)

def wordBytesLE (word : UInt32) : List UInt8 :=
  [word.toUInt8, (word >>> 8).toUInt8, (word >>> 16).toUInt8, (word >>> 24).toUInt8]

/-- The parameter word of a digest of 32 bytes, without key, one leaf and one level. -/
def parameters : UInt32 := 0x01010020

def digest (message : List UInt8) : List UInt8 :=
  let start := initial.set 0 (initial[0] ^^^ parameters)
  let chain := absorb ((message.length - 1) / 64) start 0 message
  chain.toList.flatMap wordBytesLE

end ArithCircuit.Blake2s
