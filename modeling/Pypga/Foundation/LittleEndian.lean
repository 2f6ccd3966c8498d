/- GID: Pypga/Foundation/LittleEndian
   generality: G
   digest: Lists of 32-bit words as little-endian byte strings, and back. -/

import Mathlib.Data.List.Basic
import Mathlib.Data.Nat.Bitwise

set_option autoImplicit false
set_option relaxedAutoImplicit false

namespace Pypga.Foundation.LittleEndian

abbrev Byte := BitVec 8

abbrev Word := BitVec 32

def low (n : ℕ) : Byte := BitVec.ofNat 8 (n &&& 0xFF)

def ofBytes (b₀ b₁ b₂ b₃ : Byte) : Word :=
  BitVec.ofNat 32 (b₀.toNat + 2 ^ 8 * b₁.toNat + 2 ^ 16 * b₂.toNat + 2 ^ 24 * b₃.toNat)

def toBytes (w : Word) : List Byte :=
  [low w.toNat, low (w.toNat >>> 8), low (w.toNat >>> 16), low (w.toNat >>> 24)]

theorem low_toNat (n : ℕ) : (low n).toNat = n % 256 := by
  have masked : n &&& 0xFF = n % 2 ^ 8 := Nat.and_two_pow_sub_one_eq_mod n 8
  simp [low, masked]

theorem ofBytes_low (w : Word) :
    ofBytes (low w.toNat) (low (w.toNat >>> 8)) (low (w.toNat >>> 16)) (low (w.toNat >>> 24)) =
      w := by
  apply BitVec.eq_of_toNat_eq
  have bound : w.toNat < 2 ^ 32 := w.isLt
  simp only [ofBytes, BitVec.toNat_ofNat, low_toNat]
  omega

theorem two_bytes {n : ℕ} (bound : n < 2 ^ 16) :
    (low n).toNat + ((low (n >>> 8)).toNat <<< 8) = n := by
  simp only [low_toNat, Nat.shiftLeft_eq]
  omega

theorem three_bytes {n : ℕ} (bound : n < 2 ^ 24) :
    (low n).toNat + ((low (n >>> 8)).toNat <<< 8) + ((low (n >>> 16)).toNat <<< 16) = n := by
  simp only [low_toNat, Nat.shiftLeft_eq]
  omega

def encode (ws : List Word) : List Byte := ws.flatMap toBytes

def decode : List Byte → List Word
  | b₀ :: b₁ :: b₂ :: b₃ :: rest => ofBytes b₀ b₁ b₂ b₃ :: decode rest
  | _ => []

@[simp] theorem encode_nil : encode [] = [] := rfl

theorem encode_cons (w : Word) (ws : List Word) : encode (w :: ws) = toBytes w ++ encode ws := rfl

@[simp] theorem encode_length (ws : List Word) : (encode ws).length = 4 * ws.length := by
  induction ws with
  | nil => rfl
  | cons w ws ih =>
    rw [encode_cons, List.length_append, ih, List.length_cons, toBytes]
    simp only [List.length_cons, List.length_nil]
    omega

@[simp] theorem decode_encode (ws : List Word) : decode (encode ws) = ws := by
  induction ws with
  | nil => rfl
  | cons w ws ih =>
    rw [encode_cons, toBytes]
    simp only [List.cons_append, List.nil_append, decode, ih, ofBytes_low]

end Pypga.Foundation.LittleEndian
