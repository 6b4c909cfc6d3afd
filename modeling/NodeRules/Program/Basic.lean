import NodeRules.Rule.Basic
import NodeRules.Text.Basic

namespace NodeRules

def commonLanguage : String := "common"

structure Entry where
  language : String
  rule : Rule
deriving DecidableEq

namespace Entry

def ofRule (language : String) (rule : Rule) : Entry :=
  ⟨if language = "" then commonLanguage else language, rule⟩

def name (e : Entry) : String := e.rule.name

def isCommon (e : Entry) : Bool := e.language == commonLanguage

def render (e : Entry) : String := e.language ++ ": " ++ e.rule.render

end Entry

def Program.languagesOf (es : List Entry) : List String := Text.sortedSet (es.map Entry.language)

/-- A list of entries, with the set of its languages once that has been asked for. -/
structure Program where
  entries : List Entry
  knownLanguages : Option (List String)
  coherent : ∀ known, knownLanguages = some known → known = Program.languagesOf entries

namespace Program

def unasked (es : List Entry) : Program := ⟨es, none, by simp⟩

def empty : Program := unasked []

def add (p : Program) (e : Entry) : Program := unasked (p.entries ++ [e])

@[simp] theorem entries_unasked (es : List Entry) : (unasked es).entries = es := rfl

@[simp] theorem entries_empty : empty.entries = [] := rfl

@[simp] theorem entries_add (p : Program) (e : Entry) : (p.add e).entries = p.entries ++ [e] := rfl

@[simp] theorem knownLanguages_empty : empty.knownLanguages = none := rfl

@[simp] theorem knownLanguages_add (p : Program) (e : Entry) :
    (p.add e).knownLanguages = none := rfl

def ofEntries (es : List Entry) : Program := es.foldl add empty

def size (p : Program) : Nat := p.entries.length

def isEmpty (p : Program) : Bool := p.entries.isEmpty

/-- Programs are the same when their entries are. -/
instance : BEq Program := ⟨fun p q => p.entries == q.entries⟩

/-- The languages of the program, and the program that remembers them. -/
def languages (p : Program) : List String × Program :=
  match p.knownLanguages with
  | some known => (known, p)
  | none => (languagesOf p.entries, ⟨p.entries, some (languagesOf p.entries), by simp⟩)

def render (p : Program) : String :=
  String.intercalate "\n" (p.entries.flatMap fun e => [e.language ++ ":", e.rule.render])

def entriesIn (p : Program) (language : String) : List Entry :=
  p.entries.filter (·.language == language)

end Program

end NodeRules
