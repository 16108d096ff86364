import TelegramClient.Export.ParseText
import TelegramClient.Lib.PrefixSearch
import TelegramClient.Lib.SortedLists
import TelegramClient.Support.TemplateKeys

/-! The index of the templates (`support/support_templates.cpp`): how it is computed, how the part
of one file is replaced, and how questions are found by the words of a text. -/

namespace TelegramClient.Support

open Text Std SortedLists

structure TemplatesData where
  files : ExtTreeMap QString TemplatesFile compare := ∅

/-- `std::pair` orders by the first component. -/
instance : Ord (QString × QString) := lexOrd

instance : TransOrd (QString × QString) :=
  inferInstanceAs (TransCmp (compareLex (compareOn Prod.fst) (compareOn Prod.snd)))

instance : LawfulEqOrd (QString × QString) where
  eq_of_compare {a b} h := by
    simp only [compare, compareLex_eq_eq, compareOn] at h
    exact Prod.ext (LawfulEqOrd.eq_of_compare h.1) (LawfulEqOrd.eq_of_compare h.2)

instance : Ord (QString × Int) := lexOrd

instance : TransOrd (QString × Int) :=
  inferInstanceAs (TransCmp (compareLex (compareOn Prod.fst) (compareOn Prod.snd)))

instance : LawfulEqOrd (QString × Int) where
  eq_of_compare {a b} h := by
    simp only [compare, compareLex_eq_eq, compareOn] at h
    exact Prod.ext (LawfulEqOrd.eq_of_compare h.1) (LawfulEqOrd.eq_of_compare h.2)

/-- A file name and a normalized question. -/
abbrev Id := QString × QString

/-- A search term and its weight. -/
abbrev Term := QString × Int

structure TemplatesIndex where
  first : ExtTreeMap QChar (List Id) compare := ∅
  full : ExtTreeMap Id (List Term) compare := ∅

def kWeightStep : Int := 1000

def kQueryLimit : Nat := 10

/-! ### Words -/

/-- What Qt knows of words as well. -/
structure SearchQt extends Qt where
  /-- `clean.split(RegExpWordSplit(), QString::SkipEmptyParts)` -/
  splitWords : QString → List QString

variable (qt : SearchQt)

def prepareSearchWords (query : QString) : List QString :=
  let clean := removeAccents qt.platform (qt.toLower (qt.trimmed query))
  if clean = [] then [] else ((qt.splitWords clean).map qt.trimmed).filter (· ≠ [])

/-- `word[0]` -/
def firstOf (word : QString) : QChar := word.headD 0

/-! ### The index -/

def TemplatesIndex.pushWord (index : TemplatesIndex) (id : Id) (term : Term) : TemplatesIndex where
  first := put compare index.first (firstOf term.1) id
  full := put compare index.full id term

def TemplatesIndex.pushString (index : TemplatesIndex) (id : Id) (string : QString) (weight : Int) :
    TemplatesIndex :=
  (prepareSearchWords qt string).foldl (fun index word => index.pushWord id (word, weight)) index

def TemplatesIndex.pushQuestion (index : TemplatesIndex) (id : Id) (question : TemplatesQuestion) :
    TemplatesIndex :=
  let keys := question.normalizedKeys.foldl
    (fun index key => index.pushString qt id key (kWeightStep * kWeightStep)) index
  (keys.pushString qt id question.question kWeightStep).pushString qt id question.value 1

def computeIndex (data : TemplatesData) : TemplatesIndex :=
  data.files.toList.foldl (fun index p =>
    p.2.questions.toList.foldl (fun index q => index.pushQuestion qt (p.1, q.1) q.2) index) {}

/-- The questions of a file are erased from a sorted list. -/
def eraseFile (path : QString) (list : List Id) : List Id :=
  let before := fun id : Id => compare id (path, []) == .lt
  list.takeWhile before ++ (list.dropWhile before).dropWhile fun id => id.1 = path

def replaceFileIndex (result source : TemplatesIndex) (path : QString) : TemplatesIndex where
  full := source.full.toList.foldl (fun full p => full.insertIfNew p.1 p.2)
    (result.full.filter fun id _ => id.1 ≠ path)
  first := source.first.toList.foldl
    (fun first p => first.insert p.1 (sort compare (first[p.1]?.getD [] ++ p.2)))
    (result.first.map fun _ list => eraseFile path list)

/-! ### Queries -/

def TemplatesData.questionById (data : TemplatesData) (id : Id) : Option TemplatesQuestion :=
  (data.files[id.1]?).bind fun file => file.questions[id.2]?

def TemplatesIndex.questions (index : TemplatesIndex) (word : QString) : Nat :=
  (index.first[firstOf word]?.getD []).length

/-- `std::max_element` by the weights: the first of the best. -/
def maxElement : List Term → Option Term
  | [] => none
  | a :: rest =>
    match maxElement rest with
    | none => some a
    | some b => if a.2 < b.2 then some b else some a

/-- The weight of a word among sorted terms. -/
def wordWeight (full : List Term) (word : QString) : Option Int :=
  let behind := full.dropWhile fun term => compare term.1 word == .lt
  let range := behind.takeWhile fun term => word.isPrefixOf term.1
  (maxElement range).map fun weight => weight.2 * if weight.1 = word then 2 else 1

/-- `computeWeight`, with the words that are left and the weight of those before. -/
def computeWeight (full : List Term) : List QString → Int → Int
  | [], result => result
  | word :: words, result =>
    match wordWeight full word with
    | none => 0
    | some weight => computeWeight full words (Export.wrap (result + weight))

/-- weight DESC filename DESC question ASC -/
def sorter (a b : Id × Int) : Bool :=
  if a.2 > b.2 then true
  else if a.2 < b.2 then false
  else
    match compare a.1.1 b.1.1 with
    | .gt => true
    | .lt => false
    | .eq => compare a.1.2 b.1.2 == .lt

def stableSort (pairs : List (Id × Int)) : List (Id × Int) :=
  pairs.insertionSort fun a b => !sorter b a

/-- `none` where an iterator behind the last element is followed, or `std::map::at` throws. -/
def TemplatesIndex.query (index : TemplatesIndex) (data : TemplatesData) (text : QString) :
    Option (List TemplatesQuestion) :=
  let words := prepareSearchWords qt text
  match words.argmin index.questions with
  | none => some []
  | some best =>
    match index.first[firstOf best]? with
    | none => some []
    | some narrowed => do
      let pairs ← narrowed.mapM fun id =>
        (index.full[id]?).map fun full => (id, computeWeight full words 0)
      let good := stableSort (pairs.filter fun pair => pair.2 > 0)
      ((good.map Prod.fst).take kQueryLimit).mapM data.questionById

/-! ## What is to be found -/

/-- The terms of a question. -/
def TemplatesQuestion.terms (question : TemplatesQuestion) : List Term :=
  (question.normalizedKeys.flatMap fun key =>
    (prepareSearchWords qt key).map fun word => (word, kWeightStep * kWeightStep)) ++
  (prepareSearchWords qt question.question).map (fun word => (word, kWeightStep)) ++
  (prepareSearchWords qt question.value).map fun word => (word, 1)

/-- The best weight of the terms that begin with the word, twice if it is a weight of the word. -/
def bestWeight (terms : List Term) (word : QString) : Int :=
  let best := ((terms.filter fun term => word.isPrefixOf term.1).map Prod.snd).max?.getD 0
  if (word, best) ∈ terms then 2 * best else best

def totalWeight (terms : List Term) (words : List QString) : Int :=
  (words.map (bestWeight terms)).sum

/-- All questions such that every word begins a term, with their weights. -/
def TemplatesData.found (data : TemplatesData) (words : List QString) : List (Id × Int) :=
  data.files.toList.flatMap fun p =>
    (p.2.questions.toList.filter fun q =>
      words.all fun word => (q.2.terms qt).any fun term => word.isPrefixOf term.1).map fun q =>
        ((p.1, q.1), totalWeight (q.2.terms qt) words)

/-- The first questions of these. -/
def TemplatesData.search (data : TemplatesData) (words : List QString) : List TemplatesQuestion :=
  ((stableSort (data.found qt words)).take kQueryLimit).filterMap fun pair =>
    data.questionById pair.1

end TelegramClient.Support
