/-
# Accumulation.Xdp.Frame — the bytes of a frame, and the numbers a host reads from them.

A program loads and stores the fields of a frame in the byte order of its host, and turns them with
`htons`.  Both orders are modelled: the object file is built for either.  `wire16` and `wire32` are
what a field means on the wire, whatever the host.
-/
import Mathlib

namespace Accumulation.Xdp

abbrev Frame := List UInt8

inductive ByteOrder
  | little
  | big
  deriving DecidableEq, Repr

/-! ## Numbers and bytes -/

def hi (v : UInt16) : UInt8 := .ofNat (v.toNat / 256)

def lo (v : UInt16) : UInt8 := .ofNat (v.toNat % 256)

/-- The more significant byte comes first. -/
def be16 (a b : UInt8) : UInt16 := .ofNat (a.toNat * 256 + b.toNat)

def hi16 (v : UInt32) : UInt16 := .ofNat (v.toNat / 65536)

def lo16 (v : UInt32) : UInt16 := .ofNat (v.toNat % 65536)

def be32 (a b : UInt16) : UInt32 := .ofNat (a.toNat * 65536 + b.toNat)

@[simp]
theorem be16_hi_lo (v : UInt16) : be16 (hi v) (lo v) = v := by
  have hv := v.toNat_lt
  apply UInt16.toNat_inj.mp
  simp only [be16, hi, lo, UInt16.toNat_ofNat', UInt8.toNat_ofNat']
  omega

@[simp]
theorem hi_be16 (a b : UInt8) : hi (be16 a b) = a := by
  have ha := a.toNat_lt
  have hb := b.toNat_lt
  apply UInt8.toNat_inj.mp
  simp only [be16, hi, UInt16.toNat_ofNat', UInt8.toNat_ofNat']
  omega

@[simp]
theorem lo_be16 (a b : UInt8) : lo (be16 a b) = b := by
  have ha := a.toNat_lt
  have hb := b.toNat_lt
  apply UInt8.toNat_inj.mp
  simp only [be16, lo, UInt16.toNat_ofNat', UInt8.toNat_ofNat']
  omega

@[simp]
theorem be32_hi16_lo16 (v : UInt32) : be32 (hi16 v) (lo16 v) = v := by
  have hv := v.toNat_lt
  apply UInt32.toNat_inj.mp
  simp only [be32, hi16, lo16, UInt32.toNat_ofNat', UInt16.toNat_ofNat']
  omega

@[simp]
theorem hi16_be32 (x y : UInt16) : hi16 (be32 x y) = x := by
  have hx := x.toNat_lt
  have hy := y.toNat_lt
  apply UInt16.toNat_inj.mp
  simp only [be32, hi16, UInt32.toNat_ofNat', UInt16.toNat_ofNat']
  omega

@[simp]
theorem lo16_be32 (x y : UInt16) : lo16 (be32 x y) = y := by
  have hx := x.toNat_lt
  have hy := y.toNat_lt
  apply UInt16.toNat_inj.mp
  simp only [be32, lo16, UInt32.toNat_ofNat', UInt16.toNat_ofNat']
  omega

theorem toNat_be32 (x y : UInt16) : (be32 x y).toNat = x.toNat * 65536 + y.toNat := by
  have hx := x.toNat_lt
  have hy := y.toNat_lt
  simp only [be32, UInt32.toNat_ofNat']
  omega

theorem toNat_be16 (a b : UInt8) : (be16 a b).toNat = a.toNat * 256 + b.toNat := by
  have ha := a.toNat_lt
  have hb := b.toNat_lt
  simp only [be16, UInt16.toNat_ofNat']
  omega

namespace ByteOrder

/-- The two bytes of a number in memory. -/
def bytes16 : ByteOrder → UInt16 → UInt8 × UInt8
  | little, v => (lo v, hi v)
  | big, v => (hi v, lo v)

def word16 : ByteOrder → UInt8 × UInt8 → UInt16
  | little, (a, b) => be16 b a
  | big, (a, b) => be16 a b

/-- The four bytes of a number in memory. -/
def bytes32 : ByteOrder → UInt32 → (UInt8 × UInt8) × UInt8 × UInt8
  | little, v => (little.bytes16 (lo16 v), little.bytes16 (hi16 v))
  | big, v => (big.bytes16 (hi16 v), big.bytes16 (lo16 v))

def word32 : ByteOrder → (UInt8 × UInt8) × UInt8 × UInt8 → UInt32
  | little, (a, b) => be32 (little.word16 b) (little.word16 a)
  | big, (a, b) => be32 (big.word16 a) (big.word16 b)

def htons : ByteOrder → UInt16 → UInt16
  | little, v => be16 (lo v) (hi v)
  | big, v => v

@[simp]
theorem word16_bytes16 (o : ByteOrder) (v : UInt16) : o.word16 (o.bytes16 v) = v := by
  cases o with
  | little => exact be16_hi_lo v
  | big => exact be16_hi_lo v

@[simp]
theorem word32_bytes32 (o : ByteOrder) (v : UInt32) : o.word32 (o.bytes32 v) = v := by
  cases o with
  | little => simp only [word32, bytes32, word16_bytes16, be32_hi16_lo16]
  | big => simp only [word32, bytes32, word16_bytes16, be32_hi16_lo16]

@[simp]
theorem htons_htons (o : ByteOrder) (v : UInt16) : o.htons (o.htons v) = v := by
  cases o with
  | little => simp only [htons, hi_be16, lo_be16, be16_hi_lo]
  | big => rfl

/-- Turned by `htons`, a number is in memory as it goes on the wire. -/
theorem bytes16_htons (o : ByteOrder) (v : UInt16) : o.bytes16 (o.htons v) = (hi v, lo v) := by
  cases o with
  | little => simp only [bytes16, htons, hi_be16, lo_be16]
  | big => rfl

end ByteOrder

/-- What two bytes in a row mean on the wire. -/
def wire (b : UInt8 × UInt8) : ℕ := b.1.toNat * 256 + b.2.toNat

theorem wire_le (b : UInt8 × UInt8) : wire b ≤ 65535 := by
  have h₁ := b.1.toNat_lt
  have h₂ := b.2.toNat_lt
  unfold wire
  omega

/-! ## Fields -/

namespace Frame

variable (o : ByteOrder) (frame : Frame)

def byteAt (i : ℕ) : UInt8 := frame.getD i 0

def pairAt (i : ℕ) : UInt8 × UInt8 := (frame.byteAt i, frame.byteAt (i + 1))

def load16 (i : ℕ) : UInt16 := o.word16 (frame.pairAt i)

def load32 (i : ℕ) : UInt32 := o.word32 (frame.pairAt i, frame.pairAt (i + 2))

def setPair (i : ℕ) (b : UInt8 × UInt8) : Frame := (frame.set i b.1).set (i + 1) b.2

def store16 (i : ℕ) (v : UInt16) : Frame := frame.setPair i (o.bytes16 v)

def store32 (i : ℕ) (v : UInt32) : Frame :=
  (frame.setPair i (o.bytes32 v).1).setPair (i + 2) (o.bytes32 v).2

/-! The fields of the Ethernet and IP headers, and of a TCP header right behind them. -/

def hProto : UInt16 := frame.load16 o 12

def protocol : UInt8 := frame.byteAt 23

def saddr : UInt32 := frame.load32 o 26

def daddr : UInt32 := frame.load32 o 30

def source : UInt16 := frame.load16 o 34

def dest : UInt16 := frame.load16 o 36

/-- The length of the IP header in words. -/
def ihl : ℕ := (frame.byteAt 14).toNat % 16

/-- The length of the IP packet. -/
def totLen : ℕ := wire (frame.pairAt 16)

/-- Where the TCP header starts. -/
def tcp : ℕ := 14 + 4 * frame.ihl

variable {o frame} {i j : ℕ} {b : UInt8 × UInt8}

@[simp]
theorem length_setPair : (frame.setPair i b).length = frame.length := by
  rw [setPair, List.length_set, List.length_set]

@[simp]
theorem length_store32 (v : UInt32) : (frame.store32 o i v).length = frame.length :=
  length_setPair.trans length_setPair

theorem byteAt_setPair_ne (hi : j ≠ i) (hi' : j ≠ i + 1) :
    (frame.setPair i b).byteAt j = frame.byteAt j := by
  rw [byteAt, setPair, List.getD_eq_getElem?_getD, List.getElem?_set_ne (Ne.symm hi'),
    List.getElem?_set_ne (Ne.symm hi)]
  rfl

theorem pairAt_setPair (h : i + 1 < frame.length) : (frame.setPair i b).pairAt i = b := by
  have h₀ : i < frame.length := by omega
  refine Prod.ext ?_ ?_
  · show (frame.setPair i b).byteAt i = b.1
    rw [byteAt, setPair, List.getD_eq_getElem?_getD, List.getElem?_set_ne (by omega),
      List.getElem?_set_self h₀]
    rfl
  · show (frame.setPair i b).byteAt (i + 1) = b.2
    rw [byteAt, setPair, List.getD_eq_getElem?_getD,
      List.getElem?_set_self (by rwa [List.length_set])]
    rfl

theorem pairAt_setPair_ne (h : j + 1 < i ∨ i + 1 < j) :
    (frame.setPair i b).pairAt j = frame.pairAt j := by
  refine Prod.ext ?_ ?_
  · exact byteAt_setPair_ne (by omega) (by omega)
  · exact byteAt_setPair_ne (by omega) (by omega)

end Frame

end Accumulation.Xdp
