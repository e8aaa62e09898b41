import CeIam.Library.Hex
import Mathlib.Data.List.Lex
import Mathlib.Order.Defs.LinearOrder

/-! # Principals

A principal is a node identity, written as 64 hexadecimal digits. -/

namespace CeIam

/-- An Ed25519 public key. -/
structure NodeId where
  bytes : List UInt8
  size : bytes.length = 32
deriving DecidableEq

/-- Node identities are ordered byte by byte. -/
instance : LinearOrder NodeId :=
  LinearOrder.lift' (fun n => n.bytes.map UInt8.toNat) (by
    rintro ⟨a, ha⟩ ⟨b, hb⟩ h
    have hbytes : a = b := List.map_injective_iff.mpr (fun _ _ => UInt8.toNat_inj.mp) h
    simp [hbytes])

/-- The node identity of 32 equal bytes. -/
def NodeId.filled (b : UInt8) : NodeId := ⟨(Hex.filled b).1, (Hex.filled b).2⟩

structure Principal where
  nodeId : NodeId
deriving DecidableEq

namespace Principal

def hex (p : Principal) : String := Hex.encode p.nodeId.bytes

def parse (s : String) : Except String Principal :=
  let s := Text.trim s
  match Hex.decode s with
  | none => .error ("principal '" ++ s ++ "' is not valid hex")
  | some bytes =>
      if h : bytes.length = 32 then .ok ⟨⟨bytes, h⟩⟩
      else .error ("principal '" ++ s ++ "' is not a 32-byte node id")

/-- A rendered principal parses back to itself. -/
@[simp] theorem parse_hex (p : Principal) : parse p.hex = .ok p := by
  simp only [parse, hex, Hex.trim_encode, Hex.decode_encode]
  rw [dif_pos p.nodeId.size]

theorem hex_injective : Function.Injective hex := by
  intro p q h
  have hread := congrArg parse h
  simpa using hread

@[simp] theorem hex_inj {p q : Principal} : p.hex = q.hex ↔ p = q :=
  hex_injective.eq_iff

end Principal

end CeIam
