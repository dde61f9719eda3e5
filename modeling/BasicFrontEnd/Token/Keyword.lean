/-!
The reserved words.
-/

namespace BasicFrontEnd

inductive Keyword
  | andWord
  | orWord
  | funcWord
  | forWord
  | whileWord
  | toWord
  | endWord
  | structWord
  | trueWord
  | falseWord
  | nilWord
  | intWord
  | boolWord
  | stringWord
  | floatWord
  | voidWord
  | gotoWord
  | ifWord
  | thenWord
  | elseWord
  | returnWord
  deriving DecidableEq, Inhabited

namespace Keyword

def all : List Keyword :=
  [andWord, orWord, funcWord, forWord, whileWord, toWord, endWord, structWord, trueWord, falseWord, nilWord,
   intWord, boolWord, stringWord, floatWord, voidWord, gotoWord, ifWord, thenWord, elseWord, returnWord]

theorem mem_all (k : Keyword) : k ∈ all := by
  cases k <;> decide

def spelling : Keyword → String
  | andWord    => "and"
  | orWord     => "or"
  | funcWord   => "func"
  | forWord    => "for"
  | whileWord  => "while"
  | toWord     => "to"
  | endWord    => "end"
  | structWord => "struct"
  | trueWord   => "true"
  | falseWord  => "false"
  | nilWord    => "nil"
  | intWord    => "int"
  | boolWord   => "bool"
  | stringWord => "string"
  | floatWord  => "float"
  | voidWord   => "void"
  | gotoWord   => "goto"
  | ifWord     => "if"
  | thenWord   => "then"
  | elseWord   => "else"
  | returnWord => "return"

-- The keyword that a word spells, if it is reserved.
def ofSpelling? (word : String) : Option Keyword :=
  all.find? (·.spelling == word)

theorem ofSpelling?_spelling (k : Keyword) : ofSpelling? k.spelling = some k := by
  cases k <;> decide

-- The name of the keyword's kind in listings of tokens.
def kindName : Keyword → String
  | andWord    => "And"
  | orWord     => "Or"
  | funcWord   => "Func"
  | forWord    => "For"
  | whileWord  => "While"
  | toWord     => "To"
  | endWord    => "End"
  | structWord => "Struct"
  | trueWord   => "True"
  | falseWord  => "False"
  | nilWord    => "Nil"
  | intWord    => "Int"
  | boolWord   => "Bool"
  | stringWord => "StringType"
  | floatWord  => "Float"
  | voidWord   => "Void"
  | gotoWord   => "Goto"
  | ifWord     => "If"
  | thenWord   => "Then"
  | elseWord   => "Else"
  | returnWord => "Return"

end Keyword
end BasicFrontEnd
