import QmlScript.Text.CharClass

/-!
# Quoted texts in messages

Messages show a text between single quotes, unless it holds one and no double quote. The quote and the
backslash get a backslash, the three common control characters their letter, and every other character
that is not printable its code point in hexadecimal.
-/

namespace QmlScript.Text

def unprintableRuns : List Nat := runsOf [
  "GrbBBmcgehbbbubPhbBmcBycdbCdiBbegrwbHkbBwcChcDxoChcBxcpbBccbblfBfjCwbGfbicccwbhbbdecjccceibecbfczcdbgeccwbhbcbcbc",
  "cbbfeccddbhebbhrkdbjbdbwbhbcbfckbdbdcbpecmhhbdbicccwbhbcbfcjcccdhdecbfcskcbgddbedcbbbcdcdddmefddbecbgbovfnbdbxbqc",
  "jbdbehcbdcbceckhwbdbxbkbfcjbdbehcgcbeckbcnnbdbBzbdbgeqcBabdbsdybjbbchdbegbbbigkcdmCgeBdBlcbbbfbybbbxcfbbbgckceBg",
  "CubBkeBnbBkbpbnBlHqbbfbcOnbechbbbecBpbecBhbechbbbecpbCfbecCpcBgdBagDicgcYqbBcdDlhwjyjumnbdbcmDqckgkgoblgDlhBrfCsk",
  "BfbmemebdBqcflBseBagldCkcCnbBdclgkgocBfBxCzdBvbEmiCidpdCihBrcliBrfUocgcBmcgcibbbbbbbBfcCbbpbocgbtcdbjryiBvrccBbbn",
  "dBhpBhpFkeZnzlvCRscBgbNlfBtbbfbcCehcoyjhbhbhbhbhbhbhbhbEwBiBabDlmIgBamfClbDicDzfBrbDqbDgmBvbBRIrdCdjNkuHciHvfcbbb",
  "fyChdkgCeiCsimgEmlBedDableBhbCdjockcDzyBckgcgcgjhbhbCieEwckgQNsmxeBxeDAuJMeOccEcBmhmffBabfbbbcbcbEvqRdcCchbBgBqg",
  "BzbtbeefbFfeHidgcgcgcddhbhnccmbBabtbcbpcoBiEtfdeBtdDkbndbBvBuFaBddBxpBceBkjBefBrfBebBleoBqGcckgBkeBkeBoiCalmbpbhb",
  "cblbpbhbcCpLzjwkiygbBqbjCrgcbbBsbcdbcxbCuijBwtbcfBhdBbfbCmCeeucBybcfibdbBdcdekhjhCmBgBnemjCcdBdcBbfBahemhDcCvCdBz",
  "nBzhBuikLiBfbBqbdccDaBoiBqwBaBmBcuxjDaeBkjCkbfnzhkgCbbsiBnjDsbulsbBsCnhbbbebpblgChfkgebicccwbhbcbfbkcccdcbgbfhchd",
  "fFjDobfBeCuikGkCccBmBiCrlkgntCggkCcBbcpexHdCiDwDfmicbcibcbBebccmjkCsicBuclBbCuiDfnCvKdjbBtbokBddBgcwboCvhbcbBsdbb",
  "cbjikggbcbBlbcbghkLyzHbbpBynBJnDyEhbflHoDXkDvnBPfFZtWlMUbVxhBfbkeDdbkgBecgkCskkbhbvftBAmDnDxCxeCfhrCmflcoJCaiBVq",
  "BqjNFrebhbcbLfBtdreiPgDKuEdfndjhkceGYyBucxjEmCiJmkBncCwiEivCsFyumDjjzFfDhbCtbccbcccebmbbbhbCnbecibhbBcbebfbbdhbNc",
  "cLgcBBapfbpBQmBfIrhbrchbcbfIfBtdockecMiBfrCgfbBWahbebcbpbHpcqBpCyekecBEfCqCyCjHmebBbbcbbcbbkbebbbbgbebbbbbbdbcbbc",
  "bbbbbbbbbbcbbcebhbebebbbkbrfdbfbrCacKkBseDwmpcpbpbBlkGsCeBdnBsejhcogFyBLwfqdndEmmDlhmebpmeCeikgBoiBeccDaNcmocfdfd",
  "hjBddlfgkkgiihjFrbCdBlkBNqCLFcBgGDthIocINqoLBlEPjUwCFyHHzBOTMrJgLECu"]

def isPrintable (c : Char) : Bool :=
  if c.toNat < 128 then 32 ≤ c.toNat && c.toNat < 127 else !inRuns unprintableRuns c.toNat

def hexDigits (width n : Nat) : List Char :=
  let digits := Nat.toDigits 16 n
  List.replicate (width - digits.length) '0' ++ digits

def quotedChar (quote c : Char) : List Char :=
  if c = quote || c = '\\' then ['\\', c]
  else if c = '\n' then ['\\', 'n']
  else if c = '\r' then ['\\', 'r']
  else if c = '\t' then ['\\', 't']
  else if isPrintable c then [c]
  else if c.toNat < 0x100 then '\\' :: 'x' :: hexDigits 2 c.toNat
  else if c.toNat < 0x10000 then '\\' :: 'u' :: hexDigits 4 c.toNat
  else '\\' :: 'U' :: hexDigits 8 c.toNat

def quoteFor (s : List Char) : Char := if s.contains '\'' && !s.contains '"' then '"' else '\''

def quoted (s : List Char) : List Char :=
  let quote := quoteFor s
  quote :: s.flatMap (quotedChar quote) ++ [quote]

end QmlScript.Text

namespace QmlScript

def quotedText (s : String) : String := String.ofList (Text.quoted s.toList)

end QmlScript
