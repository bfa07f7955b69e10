import JasonDb.BTree
import JasonDb.Lib.Compare

namespace JasonDb

open Lib

-- What the text index takes from elsewhere: the words of a text by the rules of Unicode, the
-- lower case of a word, and the text of a quotient as a JSON number.
structure TextTools where
  unicodeWords : String → List String
  toLowercase : String → String
  renderQuotient : Nat → Nat → String

-- The arithmetic of relevance scores, 32-bit floats. None of them is a NaN: frequencies are positive
-- and finite, and logarithms never `+∞`.
structure ScoreTools where
  Score : Type
  zero : Score
  add : Score → Score → Score
  tfIdf (frequency : Nat × Nat) (totalDocs docsWithTerm : Nat) : Score
  partialCmp : Score → Score → Option Ordering
  total : TotalPreorder fun a b => (partialCmp a b).getD .eq

def ScoreTools.order (scores : ScoreTools) (a b : scores.Score) : Ordering := (scores.partialCmp a b).getD .eq

namespace TextIndex

abbrev Postings := HashMap String (Nat × Nat)

def readPostings : Page → Postings
  | .postings entries => entries
  | _ => ∅

def fieldValues (fields : List String) (doc : Json.Map) : HashMap String String :=
  fields.foldl (fun values field => match (Json.Map.get doc field).bind Json.asStr with
    | some text => values.insert field text
    | none => values) ∅

variable (tools : TextTools)

-- Words of a single byte are left out.
def tokenize (text : String) : List String :=
  ((tools.unicodeWords text).map tools.toLowercase).filter fun word => decide (1 < word.utf8ByteSize)

-- The source divides the counts by the number of tokens; here both are kept.
def calculateTermFrequency (tokens : List String) : HashMap String (Nat × Nat) :=
  tokens.foldl (fun counts token =>
    counts.insert token (((counts.get? token).map Prod.fst).getD 0 + 1, tokens.length)) ∅

def renderPostings (postings : Postings) : String :=
  "\x7b" ++ ",".intercalate (postings.toList.map fun entry =>
    Json.renderString entry.1 ++ ":" ++ tools.renderQuotient entry.2.1 entry.2.2) ++ "\x7d"

-- A page is taken before the size is checked.
def writeData (postings : Postings) : BTree.TreeM PageNum := do
  let pageNum ← allocPage
  if (renderPostings tools postings).utf8ByteSize > PAGE_SIZE then
    Proc.fail (.other "text index data too large for page")
  else
    writePageTransfer pageNum (.postings postings)
    pure pageNum

def findPostings (key : String) : BTree.TreeM Postings := do
  match ← catching (BTree.search key) with
  | .error _ => pure ∅
  | .ok pageNum => do
    let page ← readPage pageNum
    pure (readPostings page)

def indexTerm (docId field : String) (entry : String × (Nat × Nat)) : BTree.TreeM Unit := do
  let term := entry.1
  let key := s!"{term}:{field}"
  let postings ← findPostings key
  let pageNum ← writeData tools (postings.insert docId entry.2)
  BTree.insert key pageNum

def indexField (docId : String) (values : HashMap String String) (field : String) :
    BTree.TreeM Unit :=
  match values.get? field with
  | none => pure ()
  | some text =>
    Proc.forEach (indexTerm tools docId field) (calculateTermFrequency (tokenize tools text)).toList

def indexDocument (fields : List String) (docId : String) (values : HashMap String String) :
    BTree.TreeM Unit :=
  Proc.forEach (indexField tools docId values) fields

-- A term that no document has any more leaves the tree.
def removeTerm (docId field term : String) : BTree.TreeM Unit := do
  let key := s!"{term}:{field}"
  match ← catching (BTree.search key) with
  | .error _ => pure ()
  | .ok pageNum => do
    let page ← readPage pageNum
    let postings := (readPostings page).erase docId
    if postings.isEmpty then BTree.delete key
    else
      let newPageNum ← writeData tools postings
      BTree.insert key newPageNum

def removeField (docId : String) (values : HashMap String String) (field : String) :
    BTree.TreeM Unit :=
  match values.get? field with
  | none => pure ()
  | some text => Proc.forEach (removeTerm tools docId field) (tokenize tools text).dedup

def removeDocument (fields : List String) (docId : String) (values : HashMap String String) :
    BTree.TreeM Unit :=
  Proc.forEach (removeField tools docId values) fields

section Search

variable (scores : ScoreTools)

structure SearchResult where
  docId : String
  score : scores.Score

-- What the documents of one term add to their scores.
def addScores (totalDocs : Nat) (postings : Postings) (docScores : HashMap String scores.Score) :
    HashMap String scores.Score :=
  postings.toList.foldl (fun docScores entry =>
    let score := scores.tfIdf entry.2 totalDocs postings.toList.length
    docScores.insert entry.1 (scores.add ((docScores.get? entry.1).getD scores.zero) score)) docScores

def scoreTerms (totalDocs : Nat) : List String → HashMap String scores.Score →
    BTree.TreeM (HashMap String scores.Score)
  | [], docScores => pure docScores
  | key :: rest, docScores => do
    match ← catching (BTree.search key) with
    | .error _ => scoreTerms totalDocs rest docScores
    | .ok pageNum => do
      let page ← readPage pageNum
      scoreTerms totalDocs rest (addScores scores totalDocs (readPostings page) docScores)

-- `b.score.partial_cmp(&a.score).unwrap_or(Equal)`
def compareResults (a b : SearchResult scores) : Ordering := scores.order b.score a.score

def queryKeys (fields : List String) (query : String) : List String :=
  (tokenize tools query).flatMap fun term => fields.map fun field => s!"{term}:{field}"

def search (sorter : Sorter Error (SearchResult scores)) (fields : List String) (query : String)
    (totalDocs : Nat) : BTree.TreeM (List (SearchResult scores)) := do
  if (tokenize tools query).isEmpty then pure []
  else
    let docScores ← scoreTerms scores totalDocs (queryKeys tools fields query) ∅
    Proc.ofExcept (sorter.run (compareResults scores)
      (docScores.toList.map fun entry => ⟨entry.1, entry.2⟩))

end Search

end TextIndex

end JasonDb
