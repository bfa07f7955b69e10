import JasonDb.Lib.Groups
import JasonDb.QueryBuilder

namespace JasonDb

open Lib

-- `Value::get`, with a field name.
def Json.get (value : Json) (field : String) : Option Json := value.asObject.bind (·.get field)

-- The arithmetic of 64-bit floats. A float that is not finite becomes `null` in JSON.
structure FloatTools where
  F64 : Type
  asF64 : Number → F64
  ofCount : Nat → F64
  zero : F64
  add : F64 → F64 → F64
  div : F64 → F64 → F64
  partialCmp : F64 → F64 → Option Ordering
  toJson : F64 → Json

inductive AccumulatorOp where
  | count
  | sum (field : String)
  | avg (field : String)
  | min (field : String)
  | max (field : String)

structure Accumulator where
  outputField : String
  op : AccumulatorOp

inductive Stage where
  | match_ (query : String)
  | groupBy (field : String) (accumulators : List Accumulator)
  | sort (field : String) (ascending : Bool)
  | limit (n : Nat)
  | skip (n : Nat)
  | project (fields : List String) (exclude : Bool)

structure AggregationPipeline where
  collection : String
  stages : List Stage

namespace AggregationPipeline

section Builder

variable (pipeline : AggregationPipeline) (field outputField : String)

def new (collection : String) : AggregationPipeline := ⟨collection, []⟩

def push (stage : Stage) : AggregationPipeline := { pipeline with stages := pipeline.stages ++ [stage] }

-- An accumulator belongs to the stage that was added last, if that one groups.
def addAccumulator (op : AccumulatorOp) : AggregationPipeline :=
  match pipeline.stages.getLast? with
  | some (.groupBy field accumulators) => { pipeline with
    stages := pipeline.stages.dropLast ++ [.groupBy field (accumulators ++ [⟨outputField, op⟩])] }
  | _ => pipeline

def match_ (query : String) : AggregationPipeline := pipeline.push (.match_ query)

def groupBy : AggregationPipeline := pipeline.push (.groupBy field [])

def count : AggregationPipeline := pipeline.addAccumulator outputField .count

def sum : AggregationPipeline := pipeline.addAccumulator outputField (.sum field)

def avg : AggregationPipeline := pipeline.addAccumulator outputField (.avg field)

def min : AggregationPipeline := pipeline.addAccumulator outputField (.min field)

def max : AggregationPipeline := pipeline.addAccumulator outputField (.max field)

def sort (ascending : Bool) : AggregationPipeline := pipeline.push (.sort field ascending)

def limit (n : Nat) : AggregationPipeline := pipeline.push (.limit n)

def skip (n : Nat) : AggregationPipeline := pipeline.push (.skip n)

def project (fields : List String) : AggregationPipeline := pipeline.push (.project fields false)

def exclude (fields : List String) : AggregationPipeline := pipeline.push (.project fields true)

end Builder

variable {ℓ : Type} (tools : QueryTools) (floats : FloatTools) (sorter : Sorter Error Json)

def executeMatch (query : String) (documents : List Json) : Except Error (List Json) :=
  Collection.select (Query.compile tools query) documents

section GroupBy

-- The text that stands for the value of the field; a document without the field has the value `null`.
def groupKey (field : String) (doc : Json) : String :=
  match doc.get field with
  | some (.str s) => s
  | some (.num n) => n.render
  | some (.bool b) => toString b
  | some .null => "null"
  | none => "null"
  | some other => other.render

-- `groups.entry(key).or_insert_with(Vec::new).push(doc)` for each document.
def groups (field : String) (documents : List Json) : HashMap String (List Json) :=
  Lib.groupBy (groupKey field) documents

-- The numbers that the documents have in a field.
def numbers (field : String) (docs : List Json) : List floats.F64 :=
  docs.filterMap fun doc => match doc.get field with
    | some (.num n) => some (floats.asF64 n)
    | _ => none

def order (a b : floats.F64) : Ordering := (floats.partialCmp a b).getD .eq

-- `min_by` keeps the first of several, `max_by` the last.
def minBy (floats : FloatTools) : List floats.F64 → Option floats.F64
  | [] => none
  | first :: rest => some (rest.foldl (fun least x => if order floats least x = .gt then x else least) first)

def maxBy (floats : FloatTools) : List floats.F64 → Option floats.F64
  | [] => none
  | first :: rest => some (rest.foldl (fun most x => if order floats most x = .gt then most else x) first)

def accumulate (op : AccumulatorOp) (docs : List Json) : Json :=
  match op with
  | .count => .num (.int docs.length)
  | .sum field => floats.toJson ((numbers floats field docs).foldl floats.add floats.zero)
  | .avg field =>
    let values := numbers floats field docs
    if values.isEmpty then .null
    else floats.toJson (floats.div (values.foldl floats.add floats.zero) (floats.ofCount values.length))
  | .min field => ((minBy floats (numbers floats field docs)).map floats.toJson).getD .null
  | .max field => ((maxBy floats (numbers floats field docs)).map floats.toJson).getD .null

def groupResult (accumulators : List Accumulator) (group : String × List Json) : Json :=
  .obj (accumulators.foldl
    (fun result accumulator =>
      Json.Map.insert accumulator.outputField (accumulate floats accumulator.op group.2) result)
    [("_id", .str group.1)])

def executeGroupBy (field : String) (accumulators : List Accumulator) (documents : List Json) :
    Except Error (List Json) :=
  .ok ((groups field documents).toList.map (groupResult floats accumulators))

end GroupBy

-- The comparison of `execute_sort`.
def compareDocs (field : String) (ascending : Bool) (a b : Json) : Ordering :=
  let cmp := match a.get field, b.get field with
    | some (.str a), some (.str b) => compare a b
    | some (.num a), some (.num b) => a.order b
    | some (.bool a), some (.bool b) => compare a b
    | some _, none => .gt
    | none, some _ => .lt
    | _, _ => .eq
  if ascending then cmp else cmp.swap

def executeSort (field : String) (ascending : Bool) (documents : List Json) : Except Error (List Json) :=
  sorter.run (compareDocs field ascending) documents

section Project

def copyField (obj newObj : Json.Map) (field : String) : Json.Map :=
  match obj.get field with
  | some value => newObj.insert field value
  | none => newObj

-- An inclusion keeps `_id`, whether it names it or not.
def projectDoc (fields : List String) (exclude : Bool) : Json → Json
  | .obj obj =>
    if exclude then
      .obj ((obj.filter (·.1 ∉ fields)).foldl (fun newObj entry => Json.Map.insert entry.1 entry.2 newObj) [])
    else
      let newObj := fields.foldl (copyField obj) []
      .obj (if "_id" ∈ fields then newObj else copyField obj newObj "_id")
  | doc => doc

def executeProject (fields : List String) (exclude : Bool) (documents : List Json) :
    Except Error (List Json) :=
  .ok (documents.map (projectDoc fields exclude))

end Project

def executeStage (documents : List Json) : Stage → Except Error (List Json)
  | .match_ query => executeMatch tools query documents
  | .groupBy field accumulators => executeGroupBy floats field accumulators documents
  | .sort field ascending => executeSort sorter field ascending documents
  | .limit n => .ok (documents.take n)
  | .skip n => .ok (documents.drop n)
  | .project fields exclude => executeProject fields exclude documents

def execute [SerdeJson] (pipeline : AggregationPipeline) : DbM ℓ (List Json) := do
  let documents ← QueryBuilder.allDocs pipeline.collection
  Proc.ofExcept (pipeline.stages.foldlM (executeStage tools floats sorter) documents)

end AggregationPipeline

end JasonDb
