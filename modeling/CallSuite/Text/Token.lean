import CallSuite.Text.Basic

namespace CallSuite.Text

-- A descriptor is read as delimiters of its grammar and the words between them.
inductive Token where
  | delim (c : Char)
  | word (text : String)
deriving DecidableEq, Repr

namespace Token

def text : Token → String
  | .delim c => c.toString
  | .word w => w

-- A word is trimmed, and a blank one is no token.
def consWord (cs : List Char) (rest : List Token) : List Token :=
  match trim cs with
  | [] => rest
  | cs => .word (String.ofList cs) :: rest

-- The characters of the word being read, and the tokens to its right.
def push (delims : List Char) (c : Char) : List Char × List Token → List Char × List Token
  | (cs, rest) =>
    if c = ')' then ([], consWord cs rest)
    else if c ∈ delims then ([], .delim c :: consWord cs rest)
    else (c :: cs, rest)

-- A closing parenthesis ends a word and leaves no token, so it is optional everywhere.
def split (delims : List Char) (text : List Char) : List Token :=
  let (cs, rest) := text.foldr (push delims) ([], [])
  consWord cs rest

end Token

end CallSuite.Text
