import ByExample.Json.Reader
import ByExample.Proofs.Decimal
import ByExample.Proofs.Json.Parsing
import Mathlib.Data.List.Forall2

/-!
Values made to be read: texts, integers and records. Each of them is read back as what it was made
of, and each can be read from its written form.
-/

namespace ByExample.Json

theorem mapM_eq_some_of_forall₂ {α β : Type} {read : α → Option β} {xs : List α} {ys : List β}
    (related : List.Forall₂ (fun x y => read x = some y) xs ys) : xs.mapM read = some ys := by
  induction related with
  | nil => rfl
  | cons first _ ih => simp [List.mapM_cons, first, ih]

theorem mapM_map_eq_some {α β : Type} {make : β → α} {read : α → Option β} (ys : List β)
    (inverse : ∀ y, read (make y) = some y) : (ys.map make).mapM read = some ys := by
  apply mapM_eq_some_of_forall₂
  rw [List.forall₂_map_left_iff, List.forall₂_same]
  exact fun y _ => inverse y

theorem toList_eq (bytes : ByteArray) : bytes.toList = bytes.data.toList := by
  have onward (index : Nat) (before : List UInt8) :
      ByteArray.toList.loop bytes index before =
        before.reverse ++ bytes.data.toList.drop index := by
    induction index, before using ByteArray.toList.loop.induct bytes with
    | case1 index before below ih =>
      have inside : index < bytes.data.toList.length := below
      have byte : bytes.get! index = bytes.data.toList[index] := getElem!_pos bytes.data index below
      rw [ByteArray.toList.loop, if_pos below, ih, byte, List.drop_eq_getElem_cons inside]
      simp
    | case2 index before past =>
      have outside : bytes.data.toList.length ≤ index := Nat.le_of_not_lt past
      rw [ByteArray.toList.loop, if_neg past, List.drop_eq_nil_of_le outside, List.append_nil]
  rw [ByteArray.toList, onward]
  rfl

theorem bytesFrom?_bytes (before bytes : List UInt8) :
    bytesFrom? before (bytes.map Piece.byte) = some (before.reverse ++ bytes) := by
  induction bytes generalizing before with
  | nil => simp [bytesFrom?]
  | cons byte rest ih => simp [bytesFrom?, ih]

theorem text?_piecesOf (text : String) : text? (piecesOf text) = some text := by
  have bytes : text.toUTF8.toList.toArray = text.toUTF8.data := by rw [toList_eq]
  rw [text?, piecesOf, bytesFrom?_bytes, Option.bind_some, List.reverse_nil, List.nil_append, bytes]
  exact dif_pos text.isValidUTF8

theorem proper_piecesOf (text : String) : ∀ piece ∈ piecesOf text, piece.Proper := by
  intro piece member
  obtain ⟨byte, _, rfl⟩ := List.mem_map.mp member
  trivial

namespace Value

theorem text?_ofText (text : String) : (ofText text).text? = some text :=
  text?_piecesOf text

theorem proper_ofText (text : String) : (ofText text).Proper := by
  intro token member
  rw [ofText, tokens, List.mem_singleton] at member
  rw [member]
  exact proper_piecesOf text

theorem word?_ofWord (word : Int64) : (ofWord word).word? = some word := by
  rw [ofWord, word?, if_neg (Decimal.digits_ne_minus_zero _), Decimal.integer?_digits,
    Option.bind_some, Decimal.word?_toInt]

theorem proper_ofWord (word : Int64) : (ofWord word).Proper := by
  intro token member
  rw [ofWord, tokens, List.mem_singleton] at member
  rw [member]
  exact Decimal.isNumber_digits word.toInt

theorem members?_ofMembers (members : List (String × Value)) :
    (ofMembers members).members? = some members := by
  rw [ofMembers, members?]
  exact mapM_map_eq_some members fun member => by simp [text?_piecesOf]

theorem proper_ofMembers (members : List (String × Value))
    (proper : ∀ member ∈ members, member.2.Proper) : (ofMembers members).Proper := by
  apply proper_object
  intro written among
  obtain ⟨member, listed, rfl⟩ := List.mem_map.mp among
  exact ⟨proper_piecesOf member.1, proper member listed⟩

theorem fields?_ofMembers (names : List String) (members : List (String × Value)) :
    (ofMembers members).fields? names = names.mapM (uniqueMember? members) := by
  have listed := members?_ofMembers members
  rw [ofMembers] at listed
  rw [ofMembers, fields?, listed, Option.bind_some]
  nofun

end Value

end ByExample.Json
