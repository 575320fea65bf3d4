namespace PathAttributes

/-- A finite type whose values are known by name, listed in their order of declaration. -/
class Named (α : Type) where
  all : List α
  name : α → String
  find_name (a : α) : all.find? (name · == name a) = some a

namespace Named

variable {α : Type} [Named α]

def ofName? (s : String) : Option α := all.find? (name · == s)

theorem ofName?_name (a : α) : ofName? (name a) = some a := find_name a

def rank (a : α) : Nat := (all : List α).findIdx (fun b ↦ name b == name a)

theorem getElem?_rank (a : α) : (all : List α)[rank a]? = some a :=
  List.find?_eq_getElem?_findIdx.symm.trans (find_name a)

theorem rank_injective {a b : α} (h : rank a = rank b) : a = b := by
  have := getElem?_rank a
  rw [h, getElem?_rank] at this
  exact (Option.some.inj this).symm

end Named

class Numbered (α : Type) extends Named α where
  code : α → UInt8
  find_code (a : α) : all.find? (code · == code a) = some a

namespace Numbered

variable {α : Type} [Numbered α]

def ofNumber? (n : Int) : Option α := Named.all.find? (fun a ↦ ((code a).toNat : Int) == n)

def ofCode? (c : UInt8) : Option α := Named.all.find? (code · == c)

theorem ofCode?_code (a : α) : ofCode? (code a) = some a := find_code a

theorem code_eq_of_ofCode? {c : UInt8} {a : α} (h : ofCode? c = some a) : code a = c := by
  simpa using List.find?_some h

theorem code_injective {a b : α} (h : code a = code b) : a = b :=
  Option.some.inj ((ofCode?_code a).symm.trans (h ▸ ofCode?_code b))

end Numbered

end PathAttributes
