import Trinux.Auth.Users

namespace Trinux

/-!
# The digest of passwords

SHA-256 of a text, as bytes and as the text of its digits.
-/

namespace Sha256

def k : List UInt32 := [
  0x428a2f98, 0x71374491, 0xb5c0fbcf, 0xe9b5dba5, 0x3956c25b, 0x59f111f1, 0x923f82a4, 0xab1c5ed5,
  0xd807aa98, 0x12835b01, 0x243185be, 0x550c7dc3, 0x72be5d74, 0x80deb1fe, 0x9bdc06a7, 0xc19bf174,
  0xe49b69c1, 0xefbe4786, 0x0fc19dc6, 0x240ca1cc, 0x2de92c6f, 0x4a7484aa, 0x5cb0a9dc, 0x76f988da,
  0x983e5152, 0xa831c66d, 0xb00327c8, 0xbf597fc7, 0xc6e00bf3, 0xd5a79147, 0x06ca6351, 0x14292967,
  0x27b70a85, 0x2e1b2138, 0x4d2c6dfc, 0x53380d13, 0x650a7354, 0x766a0abb, 0x81c2c92e, 0x92722c85,
  0xa2bfe8a1, 0xa81a664b, 0xc24b8b70, 0xc76c51a3, 0xd192e819, 0xd6990624, 0xf40e3585, 0x106aa070,
  0x19a4c116, 0x1e376c08, 0x2748774c, 0x34b0bcb5, 0x391c0cb3, 0x4ed8aa4a, 0x5b9cca4f, 0x682e6ff3,
  0x748f82ee, 0x78a5636f, 0x84c87814, 0x8cc70208, 0x90befffa, 0xa4506ceb, 0xbef9a3f7, 0xc67178f2]

structure State where
  a : UInt32
  b : UInt32
  c : UInt32
  d : UInt32
  e : UInt32
  f : UInt32
  g : UInt32
  h : UInt32

def h0 : State :=
  ⟨0x6a09e667, 0xbb67ae85, 0x3c6ef372, 0xa54ff53a, 0x510e527f, 0x9b05688c, 0x1f83d9ab, 0x5be0cd19⟩

def rotr (x n : UInt32) : UInt32 := (x >>> n) ||| (x <<< (32 - n))

def ch (x y z : UInt32) : UInt32 := (x &&& y) ^^^ (~~~x &&& z)

def maj (x y z : UInt32) : UInt32 := (x &&& y) ^^^ (x &&& z) ^^^ (y &&& z)

def bigSigma0 (x : UInt32) : UInt32 := rotr x 2 ^^^ rotr x 13 ^^^ rotr x 22

def bigSigma1 (x : UInt32) : UInt32 := rotr x 6 ^^^ rotr x 11 ^^^ rotr x 25

def sigma0 (x : UInt32) : UInt32 := rotr x 7 ^^^ rotr x 18 ^^^ (x >>> 3)

def sigma1 (x : UInt32) : UInt32 := rotr x 17 ^^^ rotr x 19 ^^^ (x >>> 10)

def be32 (block : List UInt8) (i : Nat) : UInt32 :=
  ((block.getD i 0).toUInt32 <<< 24) ||| ((block.getD (i + 1) 0).toUInt32 <<< 16) |||
    ((block.getD (i + 2) 0).toUInt32 <<< 8) ||| (block.getD (i + 3) 0).toUInt32

def putBe32 (v : UInt32) : List UInt8 :=
  [(v >>> 24).toUInt8, (v >>> 16).toUInt8, (v >>> 8).toUInt8, v.toUInt8]

def putBe64 (v : UInt64) : List UInt8 := putBe32 (v >>> 32).toUInt32 ++ putBe32 v.toUInt32

def nextWord (w : List UInt32) (i : Nat) : UInt32 :=
  sigma1 (w.getD (i - 2) 0) + w.getD (i - 7) 0 + sigma0 (w.getD (i - 15) 0) + w.getD (i - 16) 0

def schedule (block : List UInt8) : List UInt32 :=
  (List.range 48).foldl (fun w i => w ++ [nextWord w (16 + i)])
    ((List.range 16).map fun i => be32 block (4 * i))

def round (s : State) (word : UInt32 × UInt32) : State :=
  let t1 := s.h + bigSigma1 s.e + ch s.e s.f s.g + word.1 + word.2
  let t2 := bigSigma0 s.a + maj s.a s.b s.c
  ⟨t1 + t2, s.a, s.b, s.c, s.d + t1, s.e, s.f, s.g⟩

def sha256Block (s : State) (block : List UInt8) : State :=
  let r := (k.zip (schedule block)).foldl round s
  ⟨s.a + r.a, s.b + r.b, s.c + r.c, s.d + r.d, s.e + r.e, s.f + r.f, s.g + r.g, s.h + r.h⟩

def State.bytes (s : State) : List UInt8 :=
  putBe32 s.a ++ putBe32 s.b ++ putBe32 s.c ++ putBe32 s.d ++ putBe32 s.e ++ putBe32 s.f ++
    putBe32 s.g ++ putBe32 s.h

end Sha256

def sha256 (data : List UInt8) : List UInt8 :=
  let blocks := data.length / 64
  let s := (List.range blocks).foldl
    (fun s i => Sha256.sha256Block s ((data.drop (64 * i)).take 64)) Sha256.h0
  let rest := data.drop (64 * blocks) ++ [0x80]
  let len := Sha256.putBe64 (UInt64.ofNat data.length * 8)
  if rest.length - 1 < 56 then
    (Sha256.sha256Block s (rest ++ List.replicate (56 - rest.length) 0 ++ len)).bytes
  else
    (Sha256.sha256Block (Sha256.sha256Block s (rest ++ List.replicate (64 - rest.length) 0))
      (List.replicate 56 0 ++ len)).bytes

def nibble (n : UInt8) : UInt8 := (literal "0123456789abcdef").getD n.toNat 0

def sha256Hex (data : List UInt8) : List UInt8 :=
  (sha256 data).flatMap fun b : UInt8 => [nibble (b >>> 4), nibble (b &&& 0xF)]

example : sha256Hex (literal "abc") =
    literal "ba7816bf8f01cfea414140de5dae2223b00361a396177a9cb410ff61f20015ad" := by
  decide +kernel

theorem sha256_length (data : List UInt8) : (sha256 data).length = 32 := by
  unfold sha256
  dsimp only
  split
  · rfl
  · rfl

theorem sha256Hex_length (data : List UInt8) : (sha256Hex data).length = 64 := by
  have pairs : ∀ bytes : List UInt8,
      (bytes.flatMap fun b : UInt8 => [nibble (b >>> 4), nibble (b &&& 0xF)]).length = 2 * bytes.length := by
    intro bytes
    induction bytes with
    | nil => rfl
    | cons b rest known =>
        rw [List.flatMap_cons, List.length_append, known, List.length_cons]
        exact Nat.add_comm 2 _
  rw [sha256Hex, pairs, sha256_length]

theorem nibble_digit (n : UInt8) (small : n.toNat < 16) : nibble n ∈ literal "0123456789abcdef" := by
  rw [nibble, List.getD_eq_getElem _ _ (show n.toNat < (literal "0123456789abcdef").length from small)]
  exact List.getElem_mem _

theorem sha256Hex_digits (data : List UInt8) {c : UInt8} (member : c ∈ sha256Hex data) :
    c ∈ literal "0123456789abcdef" := by
  rcases List.mem_flatMap.mp member with ⟨b, -, digit⟩
  rcases List.mem_cons.mp digit with rfl | low
  · refine nibble_digit _ ?_
    rw [UInt8.toNat_shiftRight]
    have below := b.toNat_lt
    rw [Nat.shiftRight_eq_div_pow]
    exact Nat.div_lt_of_lt_mul below
  · rw [List.mem_singleton.mp low]
    refine nibble_digit _ ?_
    rw [UInt8.toNat_and]
    exact Nat.lt_of_le_of_lt Nat.and_le_right (by decide)

end Trinux
