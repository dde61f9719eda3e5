import BasicFrontEnd.Text.Quoted

/-!
What can be wrong with a source, and how each fault is named, described, explained and reported to the caller of
the command.
-/

namespace BasicFrontEnd

inductive Cause
  -- No token begins with the character.
  | unknownCharacter (character : Char)
  | unterminatedString
  | lexemeTooLong (limit : Nat)
  -- The file is there but cannot be read.
  | unreadableFile (path reason : String)
  | unknownPath (path : String)
  -- The tree breaks a rule that goes beyond the grammar.
  | badTree (message : String)
  -- The grammar asks for `expected` where `got` stands.
  | badToken (expected got : String)
  -- The number is out of range.
  | badNumber (token : String)
  deriving DecidableEq

namespace Cause

def name : Cause → String
  | unknownCharacter _ => "UnknownCharacter"
  | unterminatedString => "UnterminatedString"
  | lexemeTooLong _    => "LexemeTooLong"
  | unreadableFile _ _ => "BadFilePointer"
  | unknownPath _      => "UnknownPath"
  | badTree _          => "BadAst"
  | badToken _ _       => "SyntaxError"
  | badNumber _        => "NumberParseError"

-- The fault in one phrase, without its place.
def description : Cause → String
  | unknownCharacter c         => "Lexer Error: unknown character " ++ Text.quotedChar c
  | unterminatedString         => "Lexer Error: unterminated string literal"
  | lexemeTooLong limit        => "Lexer Error: lexeme longer than " ++ toString limit ++ " bytes"
  | unreadableFile path reason => "Lexer Error: cannot open " ++ Text.quoted path ++ ": " ++ reason
  | unknownPath path           => "Compiler Error: unknown path " ++ Text.quoted path
  | badTree message            => "Compiler Error: bad AST: " ++ message
  | badToken expected got      => "expected " ++ expected ++ " but got " ++ Text.quoted got
  | badNumber token            => "Syntax Error: error parsing number " ++ Text.quoted token

-- What the reader of the message might do about it.
def tip? : Cause → Option String
  | unknownCharacter _       => none
  | unterminatedString       => some "did you forget a closing `\"`?"
  | lexemeTooLong limit      => some ("literals are limited to " ++ toString limit ++ " bytes")
  | unreadableFile _ reason  => some reason
  | unknownPath _            => none
  | badTree message          => some message
  | badToken expected got    => some ("Expected " ++ expected ++ " but got '" ++ got ++ "'.")
  | badNumber token          => some ("Invalid number: `" ++ token ++ "`, is it above the integer limit?")

-- The status with which the command ends.
def exitCode : Cause → Nat
  | unknownCharacter _ | unterminatedString | lexemeTooLong _ => 100
  | unreadableFile _ _                                        => 101
  | unknownPath _                                             => 102
  | badTree _                                                 => 103
  | badToken _ _ | badNumber _                                => 104

end Cause
end BasicFrontEnd
