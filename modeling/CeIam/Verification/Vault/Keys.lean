import CeIam.Model.Secrets

/-! # The records of the vault

Six families of records share the key space of the store. A key determines its family and
the name within it, so writing one record leaves all others alone. -/

namespace CeIam.Vault

inductive Key where
  | vault
  | device (id : String)
  | pair (code : String)
  | secret (name : String)
  | enrol (id : String)
  | grant (id : String)
deriving DecidableEq

def Key.text : Key → String
  | .vault => "meta"
  | .device id => deviceKey id
  | .pair code => pairKey code
  | .secret name => secretKey name
  | .enrol id => enrolKey id
  | .grant id => grantKey id

/-- The first character of a key, which tells its family. -/
def Key.initial : Key → Char
  | .vault => 'm'
  | .device _ => 'd'
  | .pair _ => 'p'
  | .secret _ => 's'
  | .enrol _ => 'e'
  | .grant _ => 'g'

theorem Key.head_text (k : Key) : k.text.toList.head? = some k.initial := by
  cases k <;>
    simp [text, initial, deviceKey, pairKey, secretKey, enrolKey, grantKey, String.toList_append]

theorem Key.text_injective : Function.Injective Key.text := by
  intro a b h
  have hinitial : a.initial = b.initial := by
    apply Option.some_injective
    rw [← head_text, ← head_text, h]
  cases a <;> cases b <;>
    simp_all [text, initial, deviceKey, pairKey, secretKey, enrolKey, grantKey]

/-- The record of a key. -/
def look (s : OrdMap String Json) (k : Key) : Option Json := s[k.text]?

def place (s : OrdMap String Json) (k : Key) (r : Json) : OrdMap String Json :=
  s.insert k.text r

def drop (s : OrdMap String Json) (k : Key) : OrdMap String Json := s.erase k.text

variable {s : OrdMap String Json} {k l : Key} {r : Json}

@[simp] theorem look_place : look (place s k r) l = if k = l then some r else look s l := by
  simp [look, place, Key.text_injective.eq_iff]

@[simp] theorem look_drop : look (drop s k) l = if k = l then none else look s l := by
  simp [look, drop, Key.text_injective.eq_iff]

@[simp] theorem look_empty : look ∅ k = none :=
  OrdMap.get_empty _

end CeIam.Vault
