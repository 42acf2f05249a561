import QmlScript.Text.CharClass
import QmlScript.Text.Scan

/-!
# Letter case

Which characters are small or capital letters, and which letter is the other case of which. Outside
ASCII, letters with the same rule stand in rows, often every second one, so the rules are kept as
rows. A few letters have a capital form of several characters.
-/

namespace QmlScript.Text

structure Row where
  first : Nat
  last : Nat
  step : Nat

def Row.mem (row : Row) (n : Nat) : Bool :=
  row.first ≤ n && n ≤ row.last && (n - row.first) % row.step == 0

def Row.moved (row : Row) (shift : Int) : Row :=
  { row with first := (row.first + shift).toNat, last := (row.last + shift).toNat }

def wordsOf (lines : List String) : List (List Nat) :=
  lines.flatMap fun line => (splitOn ' ' line.toList).map fun word => word.map Char.toNat

/-- Rows as words: the first letter, the last one of several, and the other case of the first. A row whose other case
is next has every second letter. -/
def rowsOf (lines : List String) : List (Row × Int) :=
  let row (first last other : Nat) : Row × Int := (⟨first, last, if other = first + 1 then 2 else 1⟩, other - first)
  (wordsOf lines).filterMap fun
    | [first, last, other] => some (row first last other)
    | [letter, other] => some (row letter letter other)
    | _ => none

/-- The capital letters outside ASCII that have a small letter of their own, and how far it is away. -/
def letterRows : List (Row × Int) := rowsOf [
  "ÀÖà ØÞø ĀĮā ĲĶĳ ĹŇĺ ŊŶŋ Ÿÿ ŹŽź Ɓɓ ƂƄƃ Ɔɔ Ƈƈ ƉƊɖ Ƌƌ Ǝǝ Əə Ɛɛ Ƒƒ Ɠɠ Ɣɣ Ɩɩ Ɨɨ Ƙƙ Ɯɯ Ɲɲ Ɵɵ ƠƤơ Ʀʀ Ƨƨ Ʃʃ",
  "Ƭƭ Ʈʈ Ưư ƱƲʊ ƳƵƴ Ʒʒ Ƹƹ Ƽƽ Ǆǆ Ǉǉ Ǌǌ ǍǛǎ ǞǮǟ Ǳǳ Ǵǵ Ƕƕ Ƿƿ ǸȞǹ Ƞƞ ȢȲȣ Ⱥⱥ Ȼȼ Ƚƚ Ⱦⱦ Ɂɂ Ƀƀ Ʉʉ Ʌʌ ɆɎɇ ͰͲͱ Ͷͷ",
  "Ϳϳ Άά ΈΊέ Όό ΎΏύ ΑΡα ΣΫσ Ϗϗ ϘϮϙ Ϸϸ Ϲϲ Ϻϻ ϽϿͻ ЀЏѐ АЯа ѠҀѡ ҊҾҋ Ӏӏ ӁӍӂ ӐԮӑ ԱՖա ႠჅⴀ Ⴧⴧ Ⴭⴭ ᎠᏯꭰ ᏰᏵᏸ ᲐᲺა",
  "ᲽᲿჽ ḀẔḁ ẠỾạ ἈἏἀ ἘἝἐ ἨἯἠ ἸἿἰ ὈὍὀ Ὑὑ Ὓὓ Ὕὕ Ὗὗ ὨὯὠ ᾸᾹᾰ ᾺΆὰ ῈΉὲ ῘῙῐ ῚΊὶ ῨῩῠ ῪΎὺ Ῥῥ ῸΌὸ ῺΏὼ Ⅎⅎ ⅠⅯⅰ Ↄↄ ⒶⓏⓐ",
  "ⰀⰯⰰ Ⱡⱡ Ɫɫ Ᵽᵽ Ɽɽ ⱧⱫⱨ Ɑɑ Ɱɱ Ɐɐ Ɒɒ Ⱳⱳ Ⱶⱶ ⱾⱿȿ ⲀⳢⲁ ⳫⳭⳬ Ⳳⳳ ꙀꙬꙁ ꚀꚚꚁ ꜢꜮꜣ ꜲꝮꜳ ꝹꝻꝺ Ᵹᵹ ꝾꞆꝿ Ꞌꞌ Ɥɥ ꞐꞒꞑ ꞖꞨꞗ Ɦɦ Ɜɜ",
  "Ɡɡ Ɬɬ Ɪɪ Ʞʞ Ʇʇ Ʝʝ Ꭓꭓ ꞴꟂꞵ Ꞔꞔ Ʂʂ Ᶎᶎ ꟇꟉꟈ Ꟑꟑ ꟖꟘꟗ Ꟶꟶ ＡＺａ 𐐀𐐧𐐨 𐒰𐓓𐓘 𐕰𐕺𐖗 𐕼𐖊𐖣 𐖌𐖒𐖳 𐖔𐖕𐖻 𐲀𐲲𐳀 𑢠𑢿𑣀 𖹀𖹟𖹠 𞤀𞤡𞤢"]

def toSmallRows : List (Row × Int) := letterRows ++ rowsOf [
  "ǅǆ ǈǉ ǋǌ ǲǳ ϴθ ẞß ᾈᾏᾀ ᾘᾟᾐ ᾨᾯᾠ ᾼᾳ ῌῃ ῼῳ Ωω Kk Åå"]

def toCapitalRows : List (Row × Int) := letterRows.map (fun (row, shift) => (row.moved shift, -shift)) ++ rowsOf [
  "µΜ ıI ſS ǅǄ ǈǇ ǋǊ ǲǱ ͅΙ ςΣ ϐΒ ϑΘ ϕΦ ϖΠ ϰΚ ϱΡ ϵΕ ᲀВ ᲁД ᲂО ᲃᲄС ᲅТ ᲆЪ ᲇѢ ᲈꙊ ẛṠ ιΙ"]

def smallRuns : List Nat := runsOf [
  "GobkbebBkbDdbgbqbCbbnbnbocobdbBxbBwbsgBbbcbbbcdcbbbcbfcbbccbhbcbbcdgfbbbicBahcBefDsbCabvbBfbrbncdczcdbgbNrbBmcISd",
  "jEpErbdbqbBxIgibbGubbbbbbbBpiiiiikdbcgbddbckccckdbckdbcErbnbqnEfbdcdbBbbebebccieEFvbcbchDybBUClcFqcCkjvbgbzbBjbbb",
  "BidBFpBjbhbnBEDrhmfESebcdbBqbjCZKhBaBahbsBaBaBaebbbhblBaBaBaBaBaBaBaBaBaBaBaBaBaBaBaBaBaBcBczbgBazbgBazbgBazbgBaz",
  "bgbbCSykbu"]

def capitalRuns : List Nat := runsOf [
  "LsbZxdBfbKCnbXnbebddcdcbdfgbbbbbbeccbbkcfbGIQkBaBaBaBaBaBabbccbcccebiBaBaBacbecibhBbcbebfbbdhBbBaBaBaBaBaBaBaBaBa",
  "BaBaBezBhzBhzBhzBhzBhbJQbBagBagBa"]

/-- Words with a letter in front of its other form. -/
def formsOf (lines : List String) : List (Nat × List Nat) :=
  (wordsOf lines).filterMap fun
    | letter :: form => some (letter, form)
    | [] => none

def longSmallForms : List (Nat × List Nat) := formsOf ["İi̇"]

def longCapitalForms : List (Nat × List Nat) := formsOf [
  "ßSS ŉʼN ǰJ̌ ΐΪ́ ΰΫ́ ևԵՒ ẖH̱ ẗT̈ ẘW̊ ẙY̊ ẚAʾ ὐΥ̓ ὒΥ̓̀ ὔΥ̓́ ὖΥ̓͂ ᾲᾺΙ ᾳΑΙ ᾴΆΙ ᾶΑ͂ ᾷΑ͂Ι ᾼΑΙ ῂῊΙ ῃΗΙ",
  "ῄΉΙ ῆΗ͂ ῇΗ͂Ι ῌΗΙ ῒΪ̀ ΐΪ́ ῖΙ͂ ῗΪ͂ ῢΫ̀ ΰΫ́ ῤΡ̓ ῦΥ͂ ῧΫ͂ ῲῺΙ ῳΩΙ ῴΏΙ ῶΩ͂ ῷΩ͂Ι ῼΩΙ ﬀFF ﬁFI ﬂFL ﬃFFI",
  "ﬄFFL ﬅST ﬆST ﬓՄՆ ﬔՄԵ ﬕՄԻ ﬖՎՆ ﬗՄԽ"] ++
  [(0x1f80, 0x1f08), (0x1f90, 0x1f28), (0x1fa0, 0x1f68)].flatMap fun (letter, capital) =>
    (List.range 16).map fun n => (letter + n, [capital + n % 8, 0x399])

def isSmall (c : Char) : Bool :=
  if c.toNat < 128 then c.isLower
  else letterRows.any (fun (row, shift) => (row.moved shift).mem c.toNat) || inRuns smallRuns c.toNat

def isCapital (c : Char) : Bool :=
  if c.toNat < 128 then c.isUpper else letterRows.any (·.1.mem c.toNat) || inRuns capitalRuns c.toNat

def otherForm (rows : List (Row × Int)) (long : List (Nat × List Nat)) (c : Char) : List Char :=
  match long.find? (·.1 == c.toNat) with
  | some (_, form) => form.map Char.ofNat
  | none =>
    match rows.find? (·.1.mem c.toNat) with
    | some (_, shift) => [Char.ofNat ((c.toNat : Int) + shift).toNat]
    | none => [c]

def small (c : Char) : List Char :=
  if c.toNat < 128 then [c.toLower] else otherForm toSmallRows longSmallForms c

def capital (c : Char) : List Char :=
  if c.toNat < 128 then [c.toUpper] else otherForm toCapitalRows longCapitalForms c

end QmlScript.Text
