import Mathlib.Data.List.Infix
import JasonDb.Collection
import JasonDb.IndexKey
import JasonDb.Query.Accepts

namespace JasonDb

open Lib

theorem Query.parseQuery_isSome (tools : QueryTools) (query : String) :
    (parseQuery tools query).run.isSome := by
  rcases parseQuery_returns tools query with ⟨e, h⟩ | ⟨ast, h⟩ <;> rw [h] <;> rfl

-- A query as the calls of a collection take it.
def Query.compile (tools : QueryTools) (query : String) : JasonDb.Query :=
  ((parseQuery tools query).run.get (parseQuery_isSome tools query)).map fun ast doc => ast.eval doc

def Json.Map.remove (key : String) (fields : Map) : Map := fields.filter (·.1 ≠ key)

inductive SortOrder where
  | asc
  | desc
deriving DecidableEq

inductive Projection where
  | including (fields : List String)
  | excluding (fields : List String)

structure QueryBuilder where
  collection : String
  query : Option String
  sortFields : List (String × SortOrder)
  limitCount : Option Nat
  skipCount : Nat
  projection : Option Projection

namespace QueryBuilder

def new (collection : String) : QueryBuilder := ⟨collection, none, [], none, 0, none⟩

def getNestedField (value : Json) (field : String) : Json := value.valueAt field

mutual

-- `query_builder::compare_values`
def compareValues : Json → Json → Ordering
  | .null, .null => .eq
  | .null, _ => .lt
  | _, .null => .gt
  | .num a, .num b => a.order b
  | .str a, .str b => compare a b
  | .bool a, .bool b => compare a b
  | .arr a, .arr b => compareItems a b
  | .obj a, .obj b => compare (Json.obj a).render (Json.obj b).render
  | a, b => compare a.typeOrder b.typeOrder

def compareItems : List Json → List Json → Ordering
  | [], [] => .eq
  | [], _ :: _ => .lt
  | _ :: _, [] => .gt
  | a :: as, b :: bs =>
    let cmp := compareValues a b
    if cmp ≠ .eq then cmp else compareItems as bs

end

def compareBy (field : String) (order : SortOrder) (a b : Json) : Ordering :=
  let cmp := compareValues (getNestedField a field) (getNestedField b field)
  match order with
  | .asc => cmp
  | .desc => cmp.swap

-- The first field that makes a difference decides.
def compareDocs : List (String × SortOrder) → Json → Json → Ordering
  | [], _, _ => .eq
  | (field, order) :: rest, a, b =>
    let cmp := compareBy field order a b
    if cmp ≠ .eq then cmp else compareDocs rest a b

section Project

def getNestedFieldFromMap (obj : Json.Map) (path : String) : Option Json :=
  (Json.obj obj).resolve (path.splitOn ".")

def setNestedFieldRecursive : List String → Json.Map → Json → Json.Map
  | [], obj, _ => obj
  | [part], obj, value => obj.insert part value
  | part :: rest, obj, value =>
    let obj := if (obj.get part).isSome then obj else obj.insert part (.obj [])
    match obj.get part with
    | some (.obj nested) => obj.insert part (.obj (setNestedFieldRecursive rest nested value))
    | _ => obj

def removeNestedFieldRecursive : List String → Json.Map → Json.Map
  | [], obj => obj
  | [part], obj => obj.remove part
  | part :: rest, obj => match obj.get part with
    | some (.obj nested) => obj.insert part (.obj (removeNestedFieldRecursive rest nested))
    | _ => obj

def includeField (obj result : Json.Map) (field : String) : Json.Map :=
  if field = "_id" then result
  else if '.' ∈ field.toList then match getNestedFieldFromMap obj field with
    | some value => setNestedFieldRecursive (field.splitOn ".") result value
    | none => result
  else match obj.get field with
    | some value => result.insert field value
    | none => result

def excludeField (result : Json.Map) (field : String) : Json.Map :=
  if '.' ∈ field.toList then removeNestedFieldRecursive (field.splitOn ".") result
  else result.remove field

-- An inclusion keeps `_id`, whether it names it or not.
def applyProjection (projection : Projection) : Json → Json
  | .obj obj => match projection with
    | .including fields =>
      let result := match Json.Map.get obj "_id" with
        | some id => Json.Map.insert "_id" id []
        | none => []
      .obj (fields.foldl (includeField obj) result)
    | .excluding fields => .obj (fields.foldl excludeField obj)
  | doc => doc

end Project

variable {ℓ : Type} (tools : QueryTools) (sorter : Sorter Error Json) (builder : QueryBuilder)

-- `Err(Error::Other(msg)) if msg.contains("not found") => Vec::new()`
def orEmpty : Except Error (List Json) → Except Error (List Json)
  | .error (.other message) =>
    if "not found".toList <:+: message.toList then .ok [] else .error (.other message)
  | result => result

def allDocs [SerdeJson] (collection : String) : DbM ℓ (List Json) := do
  let found ← catching (Collection.findAll collection)
  Proc.ofExcept (orEmpty found)

def matching [SerdeJson] : DbM ℓ (List Json) :=
  match builder.query with
  | some query => do
    Collection.checkQuery (Query.compile tools query)
    let docs ← allDocs builder.collection
    Proc.ofExcept (Collection.select (Query.compile tools query) docs)
  | none => allDocs builder.collection

def sortResults (results : List Json) : Except Error (List Json) :=
  if builder.sortFields.isEmpty then .ok results
  else sorter.run (compareDocs builder.sortFields) results

-- The steps behind the sort.
def present (results : List Json) : List Json :=
  let results := results.drop builder.skipCount
  let results := match builder.limitCount with
    | some limit => results.take limit
    | none => results
  match builder.projection with
  | some projection => results.map (applyProjection projection)
  | none => results

def execute [SerdeJson] : DbM ℓ (List Json) := do
  let results ← matching tools builder
  let results ← Proc.ofExcept (builder.sortResults sorter results)
  return builder.present results

def first [SerdeJson] : DbM ℓ (Option Json) := do
  let results ← execute tools sorter { builder with limitCount := some 1 }
  return results.head?

theorem compareItems_eq (as bs : List Json) : compareItems as bs = compareLists compareValues as bs := by
  induction as generalizing bs with
  | nil => cases bs <;> rfl
  | cons a as ih =>
    cases bs with
    | nil => rfl
    | cons b bs =>
      rw [compareItems, compareLists, ih]
      cases compareValues a b <;> rfl

theorem compareValues_byType : ByType compareValues where
  types a b h := by
    cases a <;> cases b <;> first
      | exact absurd rfl h
      | rfl
  null := rfl
  bool _ _ := rfl
  num _ _ := rfl
  str _ _ := rfl
  arr as bs := compareItems_eq as bs
  obj_swap as bs _ := by
    rw [compareValues, compareValues, Std.OrientedOrd.eq_swap]
  obj_transAt as bs cs _ := by
    have hrender : ∀ as bs, compareValues (.obj as) (.obj bs) = compare (Json.obj as).render (Json.obj bs).render :=
      fun _ _ => rfl
    exact ByType.transAt_of_type hrender (.comap (f := fun fields => (Json.obj fields).render) (transAt_compare _ _ _))

theorem compareBy_swap (field : String) (order : SortOrder) (a b : Json) :
    compareBy field order a b = (compareBy field order b a).swap := by
  have hvalues := compareValues_byType.swap (getNestedField a field) (getNestedField b field)
  cases order with
  | asc => exact hvalues
  | desc => exact congrArg Ordering.swap hvalues

theorem compareBy_transAt (field : String) (order : SortOrder) (a b c : Json) :
    TransAt (compareBy field order) a b c := by
  have hvalues : TransAt (fun a b => compareValues (getNestedField a field) (getNestedField b field)) a b c :=
    .comap (f := fun doc => getNestedField doc field) (compareValues_byType.transAt _ _ _)
  cases order with
  | asc => exact hvalues
  | desc => exact hvalues.reverse

theorem compareDocs_cons (field : String) (order : SortOrder) (rest : List (String × SortOrder)) :
    compareDocs ((field, order) :: rest) =
      fun a b => (compareBy field order a b).then (compareDocs rest a b) := by
  funext a b
  change (if compareBy field order a b ≠ .eq then compareBy field order a b else compareDocs rest a b) = _
  cases compareBy field order a b <;> rfl

theorem compareDocs_swap (sortFields : List (String × SortOrder)) (a b : Json) :
    compareDocs sortFields a b = (compareDocs sortFields b a).swap := by
  induction sortFields with
  | nil => rfl
  | cons entry rest ih =>
    obtain ⟨field, order⟩ := entry
    simp only [compareDocs_cons, Ordering.swap_then]
    rw [compareBy_swap field order a b, ih]

theorem compareDocs_transAt (sortFields : List (String × SortOrder)) (a b c : Json) :
    TransAt (compareDocs sortFields) a b c := by
  induction sortFields with
  | nil => constructor <;> simp [compareDocs]
  | cons entry rest ih =>
    rw [compareDocs_cons]
    exact (compareBy_transAt entry.1 entry.2 a b c).then fun _ _ => ih

theorem compareDocs_totalPreorder (sortFields : List (String × SortOrder)) :
    TotalPreorder (compareDocs sortFields) :=
  .of_transAt (compareDocs_swap sortFields) (compareDocs_transAt sortFields)

theorem sortResults_sorts (results : List Json) : ∃ sorted, builder.sortResults sorter results = .ok sorted ∧
    sorted.Perm results ∧ sorted.Pairwise fun a b => compareDocs builder.sortFields b a ≠ .lt := by
  by_cases hempty : builder.sortFields = []
  · refine ⟨results, by simp [sortResults, hempty], .refl _, ?_⟩
    simp [hempty, compareDocs, List.pairwise_of_forall]
  · obtain ⟨sorted, hrun, hsorted⟩ := sorter.sorts ((compareDocs_totalPreorder builder.sortFields).on (· ∈ results))
    exact ⟨sorted, by simp [sortResults, hempty, hrun], hsorted⟩

theorem comparators_sort :
    TotalPreorder IndexKey.compareValues ∧ TotalPreorder compareValues ∧
      ∀ (builder : QueryBuilder) (results : List Json), ∃ sorted, builder.sortResults sorter results = .ok sorted ∧
        sorted.Perm results ∧ sorted.Pairwise fun a b => compareDocs builder.sortFields b a ≠ .lt :=
  ⟨IndexKey.compareValues_byType.totalPreorder, compareValues_byType.totalPreorder, sortResults_sorts sorter⟩

end QueryBuilder

end JasonDb
