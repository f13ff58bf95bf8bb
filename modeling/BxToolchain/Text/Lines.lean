namespace BxToolchain.Text

def isBlank (c : Char) : Bool :=
  let n := c.toNat
  (9 ≤ n && n ≤ 13) || (28 ≤ n && n ≤ 32) || n = 0x85 || n = 0xa0 || n = 0x1680 ||
    (0x2000 ≤ n && n ≤ 0x200a) || n = 0x2028 || n = 0x2029 || n = 0x202f || n = 0x205f || n = 0x3000

def isLineBoundary (c : Char) : Bool :=
  let n := c.toNat
  (10 ≤ n && n ≤ 13) || (28 ≤ n && n ≤ 30) || n = 0x85 || n = 0x2028 || n = 0x2029

def linesFrom (acc : List Char) : List Char → List (List Char)
  | [] => if acc.isEmpty then [] else [acc.reverse]
  | '\r' :: '\n' :: rest => acc.reverse :: linesFrom [] rest
  | c :: rest =>
    if isLineBoundary c then acc.reverse :: linesFrom [] rest else linesFrom (c :: acc) rest

def lines (s : String) : List String :=
  (linesFrom [] s.toList).map String.ofList

def wordsFrom (acc : List Char) : List Char → List (List Char)
  | [] => if acc.isEmpty then [] else [acc.reverse]
  | c :: rest =>
    if isBlank c then
      if acc.isEmpty then wordsFrom [] rest else acc.reverse :: wordsFrom [] rest
    else wordsFrom (c :: acc) rest

def words (s : String) : List String :=
  (wordsFrom [] s.toList).map String.ofList

def trim (s : String) : String :=
  String.ofList ((s.toList.dropWhile isBlank).reverse.dropWhile isBlank).reverse

def splitAtChar (sep : Char) : List Char → List (List Char)
  | [] => [[]]
  | c :: rest =>
    if c = sep then [] :: splitAtChar sep rest
    else
      match splitAtChar sep rest with
      | [] => [[c]]
      | first :: others => (c :: first) :: others

def splitOnChar (sep : Char) (s : String) : List String :=
  (splitAtChar sep s.toList).map String.ofList

def unifyNewlines : List Char → List Char
  | [] => []
  | '\r' :: '\n' :: rest => '\n' :: unifyNewlines rest
  | c :: rest => (if c = '\r' then '\n' else c) :: unifyNewlines rest

def fileLinesFrom (acc : List Char) : List Char → List (List Char)
  | [] => if acc.isEmpty then [] else [acc.reverse]
  | c :: rest =>
    if c = '\n' then (c :: acc).reverse :: fileLinesFrom [] rest else fileLinesFrom (c :: acc) rest

def fileLines (s : String) : List String :=
  (fileLinesFrom [] (unifyNewlines s.toList)).map String.ofList

end BxToolchain.Text
