import Metasyntax.Proofs.JsonReading

/-!
# Trees read back from JSON

The text that a tree has as JSON stands for one value, from which the tree is found again.
-/

set_option autoImplicit false

namespace Metasyntax

namespace JsonValue

open Json

mutual
def meant : JsonValue → Json
  | .number value => .number value 0
  | .text content => .text content
  | .list items => .array (meantAll items)
  | .record fields => .object (meantFields fields)

def meantAll : List JsonValue → List Json
  | [] => []
  | item :: rest => item.meant :: meantAll rest

def meantFields : List (String × JsonValue) → List (String × Json)
  | [] => []
  | (key, value) :: rest => (key, value.meant) :: meantFields rest
end

theorem meantAll_eq_map (items : List JsonValue) : meantAll items = items.map meant := by
  induction items with
  | nil => rfl
  | cons item items ih => rw [meantAll, ih, List.map_cons]

theorem meantFields_eq_map (fields : List (String × JsonValue)) :
    meantFields fields = fields.map fun field => (field.1, field.2.meant) := by
  induction fields with
  | nil => rfl
  | cons field fields ih => rw [meantFields, ih, List.map_cons]

def itemText (level : Nat) (item : JsonValue) : List Char := (render level item).toList

def fieldText (level : Nat) (field : String × JsonValue) : List Char :=
  (quote field.1).toList ++ ':' :: ' ' :: itemText level field.2

theorem toList_newLine (level : Nat) :
    (newLine level).toList = '\n' :: List.replicate (2 * level) ' ' := by
  simp [newLine]

theorem all_isGap_newLine (level : Nat) : (newLine level).toList.all isGap = true := by
  rw [toList_newLine, List.all_cons, List.all_replicate]
  split <;> rfl

theorem follows_newLine (level : Nat) (cs : List Char) :
    Follows ((newLine level).toList ++ cs) := by
  rw [toList_newLine]
  exact follows_cons (Or.inr rfl)

theorem toList_renderItems (level : Nat) (items : List JsonValue) :
    (renderItems level items).toList =
      following (newLine level).toList (items.map (itemText level)) := by
  induction items with
  | nil => rfl
  | cons item items ih => simp [renderItems, String.toList_append, ih, itemText, following]

theorem toList_renderFields (level : Nat) (fields : List (String × JsonValue)) :
    (renderFields level fields).toList =
      following (newLine level).toList (fields.map (fieldText level)) := by
  induction fields with
  | nil => rfl
  | cons field fields ih =>
    simp [renderFields, String.toList_append, ih, fieldText, itemText, following]

theorem itemText_list (level : Nat) (items : List JsonValue) :
    itemText level (.list items) = '[' :: listing (newLine (level + 1)).toList
      (newLine level).toList ']' (items.map (itemText (level + 1))) := by
  cases items with
  | nil =>
    rw [itemText, render]
    rfl
  | cons item items =>
    simp [itemText, render, String.toList_append, toList_renderItems, listing]

theorem itemText_record (level : Nat) (fields : List (String × JsonValue)) :
    itemText level (.record fields) = '\x7b' :: listing (newLine (level + 1)).toList
      (newLine level).toList '\x7d' (fields.map (fieldText (level + 1))) := by
  cases fields with
  | nil =>
    rw [itemText, render]
    rfl
  | cons field fields =>
    simp [itemText, fieldText, render, String.toList_append, toList_renderFields, listing]

theorem itemText_number (level n : Nat) : itemText level (.number n) = Nat.toDigits 10 n := by
  rw [itemText, render]
  exact String.toList_ofList

theorem itemText_eq_cons (level : Nat) (value : JsonValue) :
    ∃ c rest, itemText level value = c :: rest ∧ isGap c = false ∧ c ≠ ']' := by
  match value with
  | .number n =>
    obtain ⟨c, digits, hcons, hgap, hne⟩ := toDigits_eq_cons n
    exact ⟨c, digits, (itemText_number level n).trans hcons, hgap, hne ']' rfl⟩
  | .text content => exact ⟨'"', _, by rw [itemText, render, toList_quote], rfl, by decide⟩
  | .list items => exact ⟨'[', _, itemText_list level items, rfl, by decide⟩
  | .record fields => exact ⟨'\x7b', _, itemText_record level fields, rfl, by decide⟩

theorem fieldText_eq_cons (level : Nat) (field : String × JsonValue) :
    ∃ c rest, fieldText level field = c :: rest ∧ isGap c = false ∧ c ≠ '\x7d' :=
  ⟨'"', _, by rw [fieldText, toList_quote, List.cons_append], rfl, by decide⟩

theorem reads_list {depth level : Nat} (items : List JsonValue)
    (hread : ∀ item ∈ items, Reads (readValue depth) (itemText (level + 1) item) item.meant) :
    Reads (readValue (depth + 1)) (itemText level (.list items)) (.array (items.map meant)) := by
  intro gap after hgap _
  have hlist := readList_listing rfl (by decide) (all_isGap_newLine (level + 1))
    (all_isGap_newLine level) (follows_newLine level) after (itemText_eq_cons (level + 1)) hread
  rw [readValue_gap _ hgap, itemText_list, List.cons_append, readValue, skipGap_cons rfl]
  simp only [hlist]
  rfl

theorem reads_record {depth level : Nat} (fields : List (String × JsonValue))
    (hread : ∀ field ∈ fields, Reads (readMember (readValue depth)) (fieldText (level + 1) field)
      (field.1, field.2.meant)) :
    Reads (readValue (depth + 1)) (itemText level (.record fields))
      (.object (fields.map fun field => (field.1, field.2.meant))) := by
  intro gap after hgap _
  have hlist := readList_listing rfl (by decide) (all_isGap_newLine (level + 1))
    (all_isGap_newLine level) (follows_newLine level) after (fieldText_eq_cons (level + 1)) hread
  rw [readValue_gap _ hgap, itemText_record, List.cons_append, readValue, skipGap_cons rfl]
  simp only [hlist]
  rfl

theorem length_renderItems_lt (level : Nat) (items : List JsonValue) :
    (renderItems (level + 1) items).toList.length < (itemText level (.list items)).length := by
  rw [toList_renderItems, itemText_list]
  exact length_following_lt _

theorem length_renderFields_lt (level : Nat) (fields : List (String × JsonValue)) :
    (renderFields (level + 1) fields).toList.length <
      (itemText level (.record fields)).length := by
  rw [toList_renderFields, itemText_record]
  exact length_following_lt _

mutual
/-- A text is read as the value that it is of, at each depth that is no less than its length. -/
theorem reads_value : ∀ (value : JsonValue) (depth level : Nat),
    (itemText level value).length ≤ depth →
      Reads (readValue depth) (itemText level value) value.meant
  | .number n, depth, level, _ => by
    intro gap rest hgap hrest
    obtain ⟨c, digits, hcons, hc, hne⟩ := toDigits_eq_cons n
    rw [readValue_gap depth hgap, itemText_number, meant, ← readScalar_numeral n hrest, hcons,
      List.cons_append, readValue_scalar depth hc (hne '[' rfl) (hne '\x7b' rfl)]
  | .text content, depth, level, _ => by
    intro gap rest hgap _
    rw [readValue_gap depth hgap, itemText, render, meant, ← readScalar_quote, toList_quote,
      List.cons_append, readValue_scalar depth rfl (by decide) (by decide)]
  | .list items, depth, level, h => by
    -- the brackets make the text longer than that of the items, which are one level deeper
    have hlength := length_renderItems_lt level items
    obtain ⟨depth, rfl⟩ : ∃ less, depth = less + 1 := ⟨depth - 1, by omega⟩
    rw [meant, meantAll_eq_map]
    exact reads_list items (reads_items items depth (level + 1) (by omega))
  | .record fields, depth, level, h => by
    have hlength := length_renderFields_lt level fields
    obtain ⟨depth, rfl⟩ : ∃ less, depth = less + 1 := ⟨depth - 1, by omega⟩
    rw [meant, meantFields_eq_map]
    exact reads_record fields (reads_fields fields depth (level + 1) (by omega))

theorem reads_items : ∀ (items : List JsonValue) (depth level : Nat),
    (renderItems level items).toList.length ≤ depth →
      ∀ item ∈ items, Reads (readValue depth) (itemText level item) item.meant
  | [], _, _, _ => List.forall_mem_nil _
  | item :: rest, depth, level, h => by
    rw [toList_renderItems, List.map_cons, following_cons, ← toList_renderItems] at h
    simp only [List.length_cons, List.length_append] at h
    exact List.forall_mem_cons.2
      ⟨reads_value item depth level (by omega), reads_items rest depth level (by omega)⟩

theorem reads_fields : ∀ (fields : List (String × JsonValue)) (depth level : Nat),
    (renderFields level fields).toList.length ≤ depth →
      ∀ field ∈ fields,
        Reads (readMember (readValue depth)) (fieldText level field) (field.1, field.2.meant)
  | [], _, _, _ => List.forall_mem_nil _
  | (key, value) :: rest, depth, level, h => by
    rw [toList_renderFields, List.map_cons, following_cons, ← toList_renderFields] at h
    simp only [fieldText, List.length_cons, List.length_append] at h
    exact List.forall_mem_cons.2
      ⟨reads_member (reads_value value depth level (by omega)) key,
        reads_fields rest depth level (by omega)⟩
end

theorem ofText?_pretty (value : JsonValue) : ofText? value.pretty = some value.meant := by
  have hlength : (itemText 0 value).length ≤ value.pretty.length :=
    Nat.le_of_eq String.length_toList
  have hread := reads_value value value.pretty.length 0 hlength [] [] rfl (fun _ h => nomatch h)
  rw [List.nil_append, List.append_nil, itemText, ← pretty] at hread
  rw [ofText?, hread]
  rfl

end JsonValue

namespace Node

def leafOf? (members : List (String × Json)) : Option Node :=
  match members.lookup "value", members.lookup "offset", members.lookup "length" with
  | some (.text value), some (.number (.ofNat offset) 0), some (.number (.ofNat length) 0) =>
    if length = byteLength value.toList then some (.literal value offset) else none
  | _, _, _ => none

mutual
def ofJson? : Json → Option Node
  | .object members =>
    match members.lookup "name", childrenOf? members with
    | some (.text name), some children => some (.rule name children)
    | _, _ => leafOf? members
  | _ => none

def childrenOf? : List (String × Json) → Option (List Node)
  | [] => none
  | (key, value) :: rest => if key = "children" then listed? value else childrenOf? rest

def listed? : Json → Option (List Node)
  | .array items => ofJsonAll? items
  | _ => none

def ofJsonAll? : List Json → Option (List Node)
  | [] => some []
  | item :: rest => do return (← ofJson? item) :: (← ofJsonAll? rest)
end

theorem leafOf?_members (value : String) (offset : Nat) :
    leafOf? [("value", .text value), ("offset", .number offset 0),
      ("length", .number (byteLength value.toList) 0)] = some (.literal value offset) :=
  if_pos rfl

open JsonValue in
mutual
theorem ofJson?_toJson : ∀ node : Node, ofJson? node.toJson.meant = some node
  | .rule name children => by
    have hchildren := ofJsonAll?_toJsonAll children
    simp [toJson, meant, meantFields, ofJson?, childrenOf?, listed?, hchildren]
  | .literal value offset => by
    simp [toJson, meant, meantFields, ofJson?, childrenOf?, leafOf?_members, List.lookup_cons]

theorem ofJsonAll?_toJsonAll : ∀ nodes : List Node,
    ofJsonAll? (meantAll (toJsonAll nodes)) = some nodes
  | [] => rfl
  | node :: rest => by
    rw [toJsonAll, meantAll, ofJsonAll?, ofJson?_toJson node, ofJsonAll?_toJsonAll rest]
    rfl
end

/-- A tree is found again in its text as JSON, so that no two trees have the same text, and the
members of the object tell an inner node from a leaf. -/
theorem json_lossless :
    (∀ node, (Json.ofText? (Format.json.write node)).bind ofJson? = some node) ∧
      Function.Injective Format.json.write ∧
      ∀ node, ∃ members, Json.ofText? (Format.json.write node) = some (.object members) ∧
        members.map Prod.fst =
          if node.isRule then ["name", "children"] else ["value", "offset", "length"] := by
  have hread (node : Node) : Json.ofText? (Format.json.write node) = some node.toJson.meant :=
    JsonValue.ofText?_pretty node.toJson
  have hback (node : Node) : (Json.ofText? (Format.json.write node)).bind ofJson? = some node := by
    rw [hread, Option.bind_some, ofJson?_toJson]
  refine ⟨hback, fun node other hsame => ?_, fun node => ?_⟩
  · rw [← Option.some_inj, ← hback node, hsame, hback other]
  · rw [hread]
    cases node with
    | rule name children => exact ⟨_, rfl, rfl⟩
    | literal value offset => exact ⟨_, rfl, rfl⟩

example :
    (Json.ofText? "\x7b\"offset\" : 3e0,\n\"length\":2, \"value\": \"\\u00e9\"\x7d").bind ofJson? =
      some (.literal "é" 3) := by cbv

end Node

end Metasyntax
