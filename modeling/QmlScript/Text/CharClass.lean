/-!
# Kinds of characters

The blanks, decimal digits and word characters of all scripts. A word is a run of letters, digits, underscores and
other characters that stand for a number.
-/

namespace QmlScript.Text

def isWideBlank (c : Char) : Bool :=
  c.toNat == 0x85 || c.toNat == 0xa0 || c.toNat == 0x1680 ||
  (0x2000 ≤ c.toNat && c.toNat ≤ 0x200a) || c.toNat == 0x2028 || c.toNat == 0x2029 ||
  c.toNat == 0x202f || c.toNat == 0x205f || c.toNat == 0x3000

/-- The space and the five control characters that move the cursor. -/
def isPlainBlank (c : Char) : Bool := (9 ≤ c.toNat && c.toNat ≤ 13) || c.toNat == 32

/-- Plain blanks, the four ASCII separators and blanks of other scripts. -/
def isBlank (c : Char) : Bool :=
  isPlainBlank c || (0x1c ≤ c.toNat && c.toNat ≤ 0x1f) || isWideBlank c

def trimBy (drop : Char → Bool) (s : List Char) : List Char :=
  ((s.dropWhile drop).reverse.dropWhile drop).reverse

def trim (s : List Char) : List Char := trimBy isBlank s

def dropBlank (s : List Char) : List Char := s.dropWhile isBlank

/-! ## Decimal digits: every script has its ten in a row -/

def zeros : List Nat := [
  0x660, 0x6f0, 0x7c0, 0x966, 0x9e6, 0xa66, 0xae6, 0xb66, 0xbe6, 0xc66,
  0xce6, 0xd66, 0xde6, 0xe50, 0xed0, 0xf20, 0x1040, 0x1090, 0x17e0, 0x1810,
  0x1946, 0x19d0, 0x1a80, 0x1a90, 0x1b50, 0x1bb0, 0x1c40, 0x1c50, 0xa620, 0xa8d0,
  0xa900, 0xa9d0, 0xa9f0, 0xaa50, 0xabf0, 0xff10, 0x104a0, 0x10d30, 0x11066, 0x110f0,
  0x11136, 0x111d0, 0x112f0, 0x11450, 0x114d0, 0x11650, 0x116c0, 0x11730, 0x118e0, 0x11950,
  0x11c50, 0x11d50, 0x11da0, 0x16a60, 0x16ac0, 0x16b50, 0x1d7ce, 0x1d7d8, 0x1d7e2, 0x1d7ec,
  0x1d7f6, 0x1e140, 0x1e2f0, 0x1e950, 0x1fbf0]

def digitValue? (c : Char) : Option Nat :=
  if c.isDigit then some (c.toNat - '0'.toNat)
  else (zeros.find? fun start => start ≤ c.toNat && c.toNat < start + 10).map (c.toNat - ·)

def hexValue? (c : Char) : Option Nat :=
  if 'a' ≤ c && c ≤ 'f' then some (c.toNat - 'a'.toNat + 10)
  else if 'A' ≤ c && c ≤ 'F' then some (c.toNat - 'A'.toNat + 10)
  else digitValue? c

/-- Whether a code point lies in a set, given how many are outside and inside in turn. -/
def inRuns : List Nat → Nat → Bool
  | outside :: inside :: runs, n =>
    outside ≤ n && (n < outside + inside || inRuns runs (n - (outside + inside)))
  | _, _ => false

/-- The numbers of a line, with letters as digits; a small letter is the last digit of one. -/
def numbersOf (line : List Char) : List Nat :=
  let digit (read : Nat × List Nat) (c : Char) : Nat × List Nat :=
    if c.toNat < 'a'.toNat then (26 * read.1 + (c.toNat - 'A'.toNat), read.2)
    else (0, (26 * read.1 + (c.toNat - 'a'.toNat)) :: read.2)
  (line.foldl digit (0, [])).2.reverse

def runsOf (lines : List String) : List Nat := lines.flatMap fun line => numbersOf line.toList

def wordRuns : List Nat := runsOf [
  "GobhcbbdcbdbxbBfbRqemofhbbbEzfbccebbgbbdbbbubDfbFjiGkbBmcbgBpCtBbeeBtBrvkecbDvbbpchpcbqbbBeBdDllboBrjcebfwebjbdbx",
  "zhlfybgrBqCgCcdbsbhkekbqeicccwbhbbdedbqbncbdemcgcbigeccwbhbcbcbcBfebbhkcdqjbdbwbhbcbfdbsbpcekjblicccwbhbcbfdbBecb",
  "dekbhlbbgddbedcbbbcdcdddmwbvnsibdbxbqdbBadcbccekihbbeibdbxbkbfdbBfcbcekbcrjbdbBpcbqbfdbketbgfsdybjbbchBfkrBwbcmhj",
  "kBncbbbfbybbbkbcjbcfbbjkceBgbBfumibBkBbfElBrulggeedbdchdenmbbkgBmbbfbcBrbMvbechbbbecBpbecBhbechbbbecpbCfbecCpoudq",
  "qDicgdXwcrbBafCxdlhsntosonbdpCaBjbebdkgkwkgDlhfcBibbfCskBfBnBocflBseBaglBlxjCbBrkgknbDpBvridkBpBenCeBaBkBckdBxcjh",
  "BrcdBpebgbcdbfHkCmKscgcBmcgcibbbbbbbBfcCbbhbbddbhdecgenfdbhElccgflgnDxbebckbbdfgbbbbbbeblceffebbCgBByCiDawYgBeBRo",
  "IvgedcjbcBmbbfbcCehbqxjhbhbhbhbhbhbhbhDcbSbdzjhfcfeDigdbDmbefBrbDqdekBgBwqBgkBeibpBgkBnpMiJToCmBGUfCpBucKjdBcuBvq",
  "BfcDcBnjcDzcCmfcbbbfyqbdbebxngkCaoByBckygdbbcbBmkxzBdhBvBclgfbzbBpxdbiekgxdbdBybbdccfcbbbydclhdmgcgcgjhbhbBrbogEl",
  "nkgQNsmxeBxMNcOccEcBmhmffbbkbnbfbbbcbcbEeBhNzsCmcCcBomEmfbFftkhBagBalDldgcgcgcdBjmbBabtbcbpcoBiEtmBtmCfrcJkBddBxq",
  "BbeBkjBefBmkBecBkeibfBqGcckgBkeBkeBoiCamlbpbhbcblbpbhbcCpLzjwkiygbBqbjCrgcbbBsbcdbcxcBfcBmijBwtbcfBheBaCsCeeucBvp",
  "ebdbBdkjxBfbBgBgibBcgfqCckwcBbfBaxhDcCvCdBznBzhBqmkLiBfbBqgcDaBoiwleBbsBuBcuxmCbBaBebccbnBtBgzhkjBkpkebcbiBjdbmBw",
  "oellbbeulsbzDghbbbebpbkhBvrklicccwbhbcbfdbsbmfGcCbsefkfdBeBwucbbikGkBvBpeBkBwublkBmBrnbhkCcBbvmehHdBsEmDfmicbcibc",
  "bypbbbokCsicBnqbbbBcbkBohbvblButbsCvKdjbBlrbpBdfBeEihbcbBmvbjkggbcbBgobhkLytHhbpvBrBJmDyEhrHoDXkDtpBPfFZtWlMUbVxh",
  "BfbkgDbbkgBesBwqemkbhbvftBAmDjEbCxfbConCmcbbBcJCaiBVqBqjNFrebhbcbLfBtdreiPgDKuEdfndjhkILiuEezFfDhbCtbccbcccebmbbb",
  "hbCnbecibhbBcbebfbbdhbNcczbzbBfbzbBfbzbBfbzbBfbzbicByCQyBfSnBtkhckebMjBesBsekBWghbebcbpbHpcjBwCqhbekBElChbdbeCyBt",
  "bpHmebBbbcbbcbbkbebbbbgbebbbbbbdbcbbcbbbbbbbbbbcbbcebhbebebbbkbrfdbfbrWinEDfkBNqCLFcBgGDthIocINqoLBlEPjUwCFyHHz"]

def isWordChar (c : Char) : Bool :=
  if c.toNat < 128 then c.isAlphanum || c == '_' else inRuns wordRuns c.toNat

def spanWord (s : List Char) : List Char × List Char := s.span isWordChar

end QmlScript.Text
