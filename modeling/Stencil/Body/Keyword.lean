import Stencil.Text.Basic

/-!
The blocks of a template body and the keywords of its directives.
-/

namespace Stencil.Body

inductive Block where
  | conditional
  | loop
  | layoutCall
  | sectionBody
  deriving DecidableEq, Repr

/-- The words that make a directive after an at sign. -/
inductive Keyword where
  | ifWord
  | elseIfWord
  | elseWord
  | forWord
  | tagWord
  | layoutWord
  | sectionWord
  | endWord (block : Block)
  deriving DecidableEq, Repr

namespace Keyword

def text : Keyword → Text
  | ifWord => "if"
  | elseIfWord => "elseif"
  | elseWord => "else"
  | forWord => "for"
  | tagWord => "tag"
  | layoutWord => "layout"
  | sectionWord => "section"
  | endWord .conditional => "endif"
  | endWord .loop => "endfor"
  | endWord .layoutCall => "endlayout"
  | endWord .sectionBody => "endsection"

def mark (k : Keyword) : Text := '@' :: k.text

def all : List Keyword :=
  [ifWord, elseIfWord, elseWord, forWord, tagWord, layoutWord, sectionWord, endWord .conditional,
    endWord .loop, endWord .layoutCall, endWord .sectionBody]

def ofText? (word : Text) : Option Keyword := all.find? (·.text == word)

theorem text_of_ofText? {word : Text} {k : Keyword} (h : ofText? word = some k) :
    k.text = word := by
  simpa only [beq_iff_eq] using List.find?_some h

@[simp] theorem ofText?_text (k : Keyword) : ofText? k.text = some k := by
  rcases k with _ | _ | _ | _ | _ | _ | _ | (_ | _ | _ | _) <;> decide

end Keyword

namespace Block

def opener : Block → Keyword
  | conditional => .ifWord
  | loop => .forWord
  | layoutCall => .layoutWord
  | sectionBody => .sectionWord

def closer (b : Block) : Keyword := .endWord b

end Block

end Stencil.Body
