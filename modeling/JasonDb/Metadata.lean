import JasonDb.Basic

namespace JasonDb

open Lib

def ValueType.name : ValueType → String
  | .string => "string"
  | .number => "number"
  | .integer => "integer"
  | .boolean => "boolean"
  | .object => "object"
  | .array => "array"
  | .null => "null"

namespace Schema

private def field (name : String) : Option Json → Json.Map
  | some value => [(name, value)]
  | none => []

mutual

-- The derived serializer: one field for each part of the schema that is set.
def toJson : Schema → Json
  | .mk valueType required properties items minimum maximum minLength maxLength enumValues =>
    .obj (field "type" (valueType.map fun t => .str t.name) ++
      field "required" (required.map fun names => .arr (names.map .str)) ++
      propertiesToJson properties ++
      itemsToJson items ++
      field "minimum" (minimum.map fun n => .num (.float n)) ++
      field "maximum" (maximum.map fun n => .num (.float n)) ++
      field "minLength" (minLength.map fun n => .num (.int n)) ++
      field "maxLength" (maxLength.map fun n => .num (.int n)) ++
      field "enum" (enumValues.map .arr))

def propertiesToJson : Option (List (String × Schema)) → Json.Map
  | none => []
  | some properties => [("properties", .obj (namedToJson properties))]

def namedToJson : List (String × Schema) → Json.Map
  | [] => []
  | (name, schema) :: rest => (name, toJson schema) :: namedToJson rest

def itemsToJson : Option Schema → Json.Map
  | none => []
  | some schema => [("items", toJson schema)]

end

end Schema

def IndexMeta.toJson (m : IndexMeta) : Json :=
  .obj ([("name", .str m.name)] ++ (match m.field with
      | some field => [("field", .str field)]
      | none => []) ++
    [("fields", .arr (m.fields.map .str)), ("btree_root", .num (.int m.btreeRoot)),
      ("unique", .bool m.unique)])

def TextIndexMeta.toJson (m : TextIndexMeta) : Json :=
  .obj [("name", .str m.name), ("fields", .arr (m.fields.map .str)),
    ("btree_root", .num (.int m.btreeRoot))]

def CollectionMeta.toJson (m : CollectionMeta) : Json :=
  .obj ([("btree_root", .num (.int m.btreeRoot)),
      ("indexes", .obj (m.indexes.toList.map fun e => (e.1, e.2.toJson))),
      ("text_indexes", .obj (m.textIndexes.toList.map fun e => (e.1, e.2.toJson)))] ++
    match m.schema with
    | some schema => [("schema", schema.toJson)]
    | none => [])

def Metadata.toJson (m : Metadata) : Json :=
  .obj [("collections", .obj (m.collections.toList.map fun e => (e.1, e.2.toJson)))]

-- The number of bytes handed to the pager or the log. Only the metadata text
-- can be longer than a page: shorter text is padded, longer text is not cut.
def Page.byteLen : Page → Nat
  | .metadata m => max PAGE_SIZE m.toJson.byteLen
  | _ => PAGE_SIZE

namespace Metadata

@[simp] theorem root_modifyCollection_self (m : Metadata) (name : String)
    (f : CollectionMeta → CollectionMeta) :
    (m.modifyCollection name f).root name =
      (f ((m.collections.get? name).getD emptyCollection)).btreeRoot := by
  simp [root, modifyCollection]

@[simp] theorem root_modifyCollection_of_ne (m : Metadata) {name other : String}
    (f : CollectionMeta → CollectionMeta) (h : other ≠ name) :
    (m.modifyCollection name f).root other = m.root other := by
  simp [root, modifyCollection, HashMap.get?_insert_of_ne _ _ h]

end Metadata

end JasonDb
