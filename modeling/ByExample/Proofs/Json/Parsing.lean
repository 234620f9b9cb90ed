import ByExample.Json.Parser
import ByExample.Proofs.Json.Scanning

/-!
Reading what has been written. The parser makes the value of a value's tokens, whatever is open
around it (`Parser.feed_tokens`), and no two words meet among them. So a value is read back from its
written form (`Value.read?_write`).
-/

namespace ByExample.Json

namespace Value

mutual

theorem apart_tokens : (value : Value) → Apart false value.tokens
  | .null => ⟨nofun, trivial⟩
  | .bool _ => ⟨nofun, trivial⟩
  | .number _ => ⟨nofun, trivial⟩
  | .string _ => ⟨nofun, trivial⟩
  | .array [] => ⟨nofun, nofun, trivial⟩
  | .array (item :: rest) => ⟨nofun, (apart_tokens item).append (apart_itemTokens rest)⟩
  | .object [] => ⟨nofun, nofun, trivial⟩
  | .object ((_, value) :: rest) =>
    ⟨nofun, nofun, nofun, (apart_tokens value).append (apart_memberTokens rest)⟩

theorem apart_itemTokens : (items : List Value) → Apart true (itemTokens items)
  | [] => ⟨fun _ => rfl, trivial⟩
  | item :: rest => ⟨fun _ => rfl, (apart_tokens item).append (apart_itemTokens rest)⟩

theorem apart_memberTokens : (members : List (List Piece × Value)) →
    Apart true (memberTokens members)
  | [] => ⟨fun _ => rfl, trivial⟩
  | (_, value) :: rest =>
    ⟨fun _ => rfl, nofun, nofun, (apart_tokens value).append (apart_memberTokens rest)⟩

end

end Value

namespace Parser

theorem feed_firstItem (value : Value) (stack : List Frame) :
    value.tokens.foldlM feed (.firstItem stack) =
      value.tokens.foldlM feed (.value (.array [] :: stack)) := by
  cases value with
  | array items => cases items <;> rfl
  | object members => cases members <;> rfl
  | _ => rfl

mutual

theorem feed_tokens (stack : List Frame) : (value : Value) →
    value.tokens.foldlM feed (.value stack) = some (.after value stack)
  | .null => rfl
  | .bool _ => rfl
  | .number _ => rfl
  | .string _ => rfl
  | .array [] => rfl
  | .array (item :: rest) => by
    have first := (feed_firstItem item stack).trans (feed_tokens (.array [] :: stack) item)
    have others := feed_itemTokens stack item [] rest
    rw [Value.tokens, List.foldlM_cons]
    simp only [feed, begin, Option.bind_eq_bind, Option.bind_some, List.foldlM_append, first,
      others]
    simp
  | .object [] => rfl
  | .object ((name, inner) :: rest) => by
    have first := feed_tokens (.object [] name :: stack) inner
    have others := feed_memberTokens stack name inner [] rest
    rw [Value.tokens, List.foldlM_cons]
    simp only [feed, begin, Option.bind_eq_bind, Option.bind_some, List.foldlM_cons,
      List.foldlM_append, first, others]
    simp

theorem feed_itemTokens (stack : List Frame) (done : Value) (items : List Value) :
    (rest : List Value) →
      (Value.itemTokens rest).foldlM feed (.after done (.array items :: stack)) =
        some (.after (.array ((done :: items).reverse ++ rest)) stack)
  | [] => by simp [Value.itemTokens, feed]
  | item :: rest => by
    have first := feed_tokens (.array (done :: items) :: stack) item
    have others := feed_itemTokens stack item (done :: items) rest
    rw [Value.itemTokens, List.foldlM_cons]
    simp only [feed, Option.bind_eq_bind, Option.bind_some, List.foldlM_append, first, others]
    simp

theorem feed_memberTokens (stack : List Frame) (name : List Piece) (done : Value)
    (members : List (List Piece × Value)) : (rest : List (List Piece × Value)) →
      (Value.memberTokens rest).foldlM feed (.after done (.object members name :: stack)) =
        some (.after (.object (((name, done) :: members).reverse ++ rest)) stack)
  | [] => by simp [Value.memberTokens, feed]
  | (next, inner) :: rest => by
    have first := feed_tokens (.object ((name, done) :: members) next :: stack) inner
    have others := feed_memberTokens stack next inner ((name, done) :: members) rest
    rw [Value.memberTokens, List.foldlM_cons]
    simp only [feed, Option.bind_eq_bind, Option.bind_some, List.foldlM_cons, List.foldlM_append,
      first, others]
    simp

end

end Parser

namespace Value

theorem ofTokens?_tokens (value : Value) : ofTokens? value.tokens = some value := by
  simp [ofTokens?, Parser.feed_tokens]

/-- A value all of whose numbers and strings can be read. -/
def Proper (value : Value) : Prop :=
  ∀ token ∈ value.tokens, token.Proper

theorem mem_tokens_array (items : List Value) (token : Token)
    (member : token ∈ (array items).tokens) : token = .openBracket ∨ token ∈ itemTokens items := by
  cases items with
  | nil => simpa only [tokens, itemTokens, List.mem_cons] using member
  | cons item rest =>
    rw [tokens, List.mem_cons] at member
    exact member.imp_right (List.mem_cons_of_mem _)

theorem mem_tokens_object (members : List (List Piece × Value)) (token : Token)
    (member : token ∈ (object members).tokens) :
    token = .openBrace ∨ token ∈ memberTokens members := by
  cases members with
  | nil => simpa only [tokens, memberTokens, List.mem_cons] using member
  | cons first rest =>
    rw [tokens, List.mem_cons] at member
    exact member.imp_right (List.mem_cons_of_mem _)

theorem proper_array (items : List Value) (proper : ∀ item ∈ items, item.Proper) :
    (array items).Proper := by
  have further : ∀ token ∈ itemTokens items, token.Proper := by
    induction items with
    | nil => simp [itemTokens, Token.Proper]
    | cons item rest ih =>
      obtain ⟨first, others⟩ := List.forall_mem_cons.mp proper
      simp only [itemTokens, List.mem_cons, List.mem_append]
      rintro token (rfl | inside | later)
      · trivial
      · exact first token inside
      · exact ih others token later
  intro token member
  rcases mem_tokens_array items token member with rfl | among
  · trivial
  · exact further token among

theorem proper_object (members : List (List Piece × Value))
    (proper : ∀ member ∈ members, (∀ piece ∈ member.1, piece.Proper) ∧ member.2.Proper) :
    (object members).Proper := by
  have further : ∀ token ∈ memberTokens members, token.Proper := by
    induction members with
    | nil => simp [memberTokens, Token.Proper]
    | cons member rest ih =>
      obtain ⟨⟨named, first⟩, others⟩ := List.forall_mem_cons.mp proper
      simp only [memberTokens, List.mem_cons, List.mem_append]
      rintro token (rfl | rfl | rfl | inside | later)
      · trivial
      · exact named
      · trivial
      · exact first token inside
      · exact ih others token later
  intro token member
  rcases mem_tokens_object members token member with rfl | among
  · trivial
  · exact further token among

theorem read?_write (value : Value) (proper : value.Proper) : read? value.write = some value := by
  rw [read?, write, tokens?_write value.tokens value.apart_tokens proper, Option.bind_some,
    ofTokens?_tokens]

end Value

end ByExample.Json
