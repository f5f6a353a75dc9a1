import Mathlib.Data.Int.Notation
import Mathlib.Data.List.Nodup

/-!
# JSON trees

Documents as a JSON library builds and walks them: items are found by the first
member of their name, and a loop over an item visits its children.
-/

namespace NzbDownloader.Lib

inductive Json (σ : Type) where
  | null
  | bool (value : Bool)
  | number (value : ℤ)
  | string (text : σ)
  | array (items : List (Json σ))
  | object (members : List (String × Json σ))

namespace Json

variable {σ : Type} {members : List (String × Json σ)} {key : String} {value : Json σ}

def get? (key : String) : Json σ → Option (Json σ)
  | object members => (members.find? fun member => member.1 = key).map Prod.snd
  | _ => none

def children : Json σ → List (Json σ)
  | array items => items
  | object members => members.map Prod.snd
  | _ => []

def string? : Json σ → Option σ
  | string text => some text
  | _ => none

def number? : Json σ → Option ℤ
  | number value => some value
  | _ => none

def isTrue : Json σ → Bool
  | bool value => value
  | _ => false

theorem get?_object {i : ℕ} (names : (members.map Prod.fst).Nodup)
    (at' : members[i]? = some (key, value)) : (object members).get? key = some value := by
  have member := List.mem_of_getElem? at'
  have found : members.find? (fun member => member.1 = key) = some (key, value) := by
    cases search : members.find? (fun member => member.1 = key) with
    | none =>
      have missed := List.find?_eq_none.mp search _ member
      simp at missed
    | some other =>
      have named := List.find?_some search
      rw [List.inj_on_of_nodup_map names (List.mem_of_find?_eq_some search) member
        (of_decide_eq_true named)]
  rw [get?, found, Option.map_some]

end Json

end NzbDownloader.Lib
