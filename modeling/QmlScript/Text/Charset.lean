/-!
# Character sets

Files say by name how their bytes stand for characters. Most names belong to a set that extends ASCII
by up to 128 characters, one byte each. A name may be written in upper or lower case, and any signs may
part its words.
-/

namespace QmlScript.Text

/-- A character set with one byte for each character. The bytes below 128 stand for ASCII. -/
structure Charset where
  /-- The characters of the bytes from 128 on; a question mark is where there is none. -/
  upper : List Char
  lacks : List Char := []

namespace Charset

def ascii : Charset := { upper := List.replicate 128 '?' }

/-- The set with the given characters for the last bytes; bytes from 128 before stand for their numbers. -/
def ofUpper (s : String) : Charset :=
  { upper := (List.range (128 - s.length)).map (fun n => Char.ofNat (128 + n)) ++ s.toList }

def latin : Charset := ofUpper ""

def span (first count : Nat) : String :=
  String.ofList ((List.range count).map fun n => Char.ofNat (first + n))

def but (c : Charset) (changes : List (Nat × String)) : Charset :=
  let change (upper : List Char) : Nat × String → List Char := fun (byte, s) =>
    upper.take (byte - 128) ++ s.toList ++ upper.drop (byte - 128 + s.length)
  { c with upper := changes.foldl change c.upper }

def char? (c : Charset) (byte : UInt8) : Option Char :=
  if byte.toNat < 128 then
    let found := Char.ofNat byte.toNat
    if c.lacks.contains found then none else some found
  else
    match c.upper[byte.toNat - 128]? with
    | some found => if found = '?' then none else some found
    | none => none

def cp437 : Charset :=
  ofUpper ("ÇüéâäàåçêëèïîìÄÅÉæÆôöòûùÿÖÜ¢£¥₧ƒáíóúñÑªº¿⌐¬½¼¡«»░▒▓│┤╡╢╖╕╣║╗╝╜╛┐└┴┬├─┼╞╟╚╔╩╦╠═╬╧╨╤╥╙╘╒╓╫╪┘┌█" ++
    "▄▌▐▀αßΓπΣσµτΦΘΩδ∞φε∩≡±≥≤⌠⌡÷≈°∙·√ⁿ²■\u00a0")

def cp850 : Charset :=
  cp437.but [(155, "ø£Ø×"), (169, "®"), (181, "ÁÂÀ©"), (189, "¢¥"), (198, "ãÃ"), (207, "¤ðÐÊËÈıÍÎÏ"),
    (221, "¦Ì▀ÓßÔÒõÕµþÞÚÛÙýÝ¯´\u00ad±‗¾¶§÷¸°¨·¹³")]

def cp866 : Charset := cp437.but [(128, span 0x410 48), (224, "рстуфхцчшщъыьэюяЁёЄєЇїЎў°∙·√№¤")]

def cp1252 : Charset := latin.but [(128, "€?‚ƒ„…†‡ˆ‰Š‹Œ?Ž??‘’“”•–—˜™š›œ?žŸ")]

def cp1251 : Charset :=
  cp1252.but [(128, "ЂЃ‚ѓ"), (136, "€‰Љ‹ЊЌЋЏђ"), (152, "?™љ›њќћџ\u00a0ЎўЈ¤Ґ¦§Ё©Є"), (175, "Ї°±Ііґµ¶·ё№є»" ++
    "јЅѕї" ++ span 0x410 64)]

def iso2 : Charset :=
  ofUpper ("Ą˘Ł¤ĽŚ§¨ŠŞŤŹ\u00adŽŻ°ą˛ł´ľśˇ¸šşťź˝žżŔÁÂĂÄĹĆÇČÉĘËĚÍÎĎĐŃŇÓÔŐÖ×ŘŮÚŰÜÝŢßŕáâăäĺćçčéęëěíîďđńňóôőö÷řůúűüýţ˙")

def iso7 : Charset :=
  ofUpper ("‘’£€₯¦§¨©ͺ«¬\u00ad?―°±²³΄΅Ά·ΈΉΊ»Ό½" ++ span 0x38e 20 ++ "?" ++ span 0x3a3 44 ++ "?")

def iso8 : Charset :=
  latin.but [(161, "?"), (170, "×"), (186, "÷»¼½¾????????????????????????????????‗" ++
    span 0x5d0 27 ++ "??\u200e\u200f?")]

def iso10 : Charset :=
  ofUpper ("ĄĒĢĪĨĶ§ĻĐŠŦŽ\u00adŪŊ°ąēģīĩķ·ļđšŧž―ūŋĀÁÂÃÄÅÆĮČÉĘËĖÍÎÏÐŅŌÓÔÕÖŨØŲÚÛÜÝÞßāáâãäåæįčéęëėíîïðņōóôõöũøųúûüýþĸ")

def iso11 : Charset := ofUpper (span 0xe01 58 ++ "????" ++ span 0xe3f 29 ++ "????")

def iso13 : Charset :=
  ofUpper ("”¢£¤„¦§Ø©Ŗ«¬\u00ad®Æ°±²³“µ¶·ø¹ŗ»¼½¾æĄĮĀĆÄÅĘĒČÉŹĖĢĶĪĻŠŃŅÓŌÕÖ×ŲŁŚŪÜŻŽßąįāćäåęēčéźėģķīļšńņóōõö÷ųłśūüżž’")

def koi : Charset :=
  ofUpper ("─│┌┐└┘├┤┬┴┼▀▄█▌▐░▒▓⌠■∙√≈≤≥\u00a0⌡°²·÷═║╒ё" ++ span 0x2553 15 ++ "Ё╢╣╤╥╦╧╨╩╪╫╬©юабцдефгхийклм" ++
    "нопярстужвьызшэщчъЮАБЦДЕФГХИЙКЛМНОПЯРСТУЖВЬЫЗШЭЩЧЪ")

def mac : Charset :=
  ofUpper ("ÄÅÇÉÑÖÜáàâäãåçéèêëíìîïñóòôöõúùûü†°¢£§•¶ß®©™´¨≠ÆØ∞±≤≥¥µ∂∑∏π∫ªºΩæø¿¡¬√ƒ≈∆«»…\u00a0ÀÃÕŒœ–—“”‘’÷" ++
    "◊ÿŸ⁄€‹›ﬁﬂ‡·‚„‰ÂÊÁËÈÍÎÏÌÓÔ\uf8ffÒÚÛÙıˆ˜¯˘˙˚¸˝˛ˇ")

end Charset

inductive Encoding where
  | single (set : Charset)
  | wide
  | foreign
  | notText
  | refused
  | outOfRange

namespace Encoding

open Charset

def wordsOf (s : String) : List String :=
  (s.splitToList Char.isWhitespace).filter (!·.isEmpty)

/-- The encodings: for each its other names, its own names and what they mean. -/
def table : List (String × String × Encoding) := [
  ("1125 cp866u ibm1125 ruscii", "cp1125", .single (cp866.but [(242, "ҐґЄєІіЇї")])),
  ("1250 windows_1250", "cp1250",
    .single (iso2.but [(128, "€?‚?„…†‡?‰Š‹ŚŤŽŹ?‘’“”•–—?™š›śťžź\u00a0ˇ˘Ł¤Ą¦§¨©Ş«¬\u00ad®Ż°±˛ł´µ¶·¸ąş»Ľ˝ľ")])),
  ("1251 windows_1251", "cp1251", .single cp1251),
  ("1252 windows_1252", "cp1252", .single cp1252),
  ("1253 windows_1253", "cp1253",
    .single (iso7.but [(128, "€?‚ƒ„…†‡?‰?‹?????‘’“”•–—?™?›????\u00a0΅Ά£¤¥¦§¨©?«¬\u00ad®"),
      (181, "µ¶")])),
  ("1254 windows_1254", "cp1254",
    .single (cp1252.but [(142, "?"), (158, "?"), (208, "Ğ"), (221, "İŞ"), (240, "ğ"), (253, "ış")])),
  ("1255 windows_1255", "cp1255",
    .single (iso8.but [(128, "€?‚ƒ„…†‡ˆ‰?‹?????‘’“”•–—˜™?›????\u00a0¡¢£₪"), (191, "¿" ++
      span 0x5b0 10 ++ "?" ++ span 0x5bb 9 ++ "װױײ׳״???????")])),
  ("1256 windows_1256", "cp1256",
    .single (cp1252.but [(129, "پ"), (138, "ٹ‹Œچژڈگ"), (152, "ک™" ++
      "ڑ›œ\u200c\u200dں\u00a0،"), (170, "ھ"), (186, "؛»¼½¾؟ہ" ++ span 0x621 22 ++ "×طظعغـفقكàلâمنه" ++
      "وçèéêëىيîï\u064b\u064c\u064d\u064eô\u064f\u0650÷\u0651ù\u0652ûü\u200e\u200fے")])),
  ("1257 windows_1257", "cp1257",
    .single (iso13.but [(128, "€?‚?„…†‡?‰?‹?¨ˇ¸?‘’“”•–—?™?›?¯˛?\u00a0?¢£¤?"), (180, "´"),
      (255, "˙")])),
  ("1258 windows_1258", "cp1258",
    .single (cp1252.but [(138, "?‹Œ??"), (154, "?›œ??"), (195, "Ă"), (204, "\u0300ÍÎÏĐÑ\u0309ÓÔƠ"),
      (221, "Ư\u0303ßàáâă"), (236, "\u0301íîïđñ\u0323óôơ"), (253, "ư₫")])),
  ("437 cspc8codepage437 ibm437", "cp437", .single cp437),
  ("646 ansi_x3.4_1968 ansi_x3.4_1986 ansi_x3_4_1968 cp367 cp65001 csascii csiso2022jp ibm367 iso2022jp
    iso2022jp_1 iso2022jp_2 iso2022jp_2004 iso2022jp_3 iso2022jp_ext iso646_us iso_2022_jp iso_2022_jp_1
    iso_2022_jp_2 iso_2022_jp_2004 iso_2022_jp_3 iso_2022_jp_ext iso_646.irv_1991 iso_ir_6 u8 us us_ascii utf
    utf8 utf8_ucs2 utf8_ucs4",
    "ascii iso2022_jp iso2022_jp_1 iso2022_jp_2 iso2022_jp_2004 iso2022_jp_3 iso2022_jp_ext utf_8 utf_8_sig",
    .single ascii),
  ("775 cspc775baltic ibm775", "cp775",
    .single (cp437.but [(128, "ĆüéāäģåćłēŖŗīŹ"), (147, "ōöĢ¢ŚśÖÜø£Ø×¤ĀĪóŻżź”¦©®¬½¼Ł"),
      (181, "ĄČĘĖ"), (189, "ĮŠ"), (198, "ŲŪ"), (207, "Žąčęėįšųūž"), (224, "ÓßŌŃõÕµńĶķĻļņĒŅ’\u00ad±“¾¶§÷„°∙·¹³")])),
  ("850 cspc850multilingual ibm850", "cp850", .single cp850),
  ("852 cspcp852 ibm852", "cp852",
    .single (cp850.but [(133, "ůćçłëŐőîŹÄĆÉĹĺôöĽľŚśÖÜŤťŁ×čáíóúĄąŽžĘę¬źČş"), (183, "ĚŞ╣║╗╝Żż"),
      (198, "Ăă"), (208, "đĐĎËďŇÍÎě┘┌█▄ŢŮ▀ÓßÔŃńňŠšŔÚŕŰýÝţ´\u00ad˝˛ˇ˘§÷¸°¨˙űŘř")])),
  ("855 csibm855 ibm855", "cp855",
    .single (cp850.but [(128, "ђЂѓЃёЁєЄѕЅіІїЇјЈљЉњЊћЋќЌўЎџЏюЮъЪаАбБцЦдДеЕфФгГ"), (181, "хХиИ"),
      (189, "йЙ"), (198, "кК"), (208, "лЛмМнНоОп"), (221, "Пя▀ЯрРсСтТуУжЖвВьЬ№\u00adыЫзЗшШэЭщЩчЧ§")])),
  ("857 csibm857 ibm857", "cp857",
    .single (cp850.but [(141, "ı"), (152, "İ"), (158, "Şş"), (166, "Ğğ"), (208, "ºªÊËÈ?"),
      (231, "?×ÚÛÙìÿ"), (242, "?")])),
  ("858 csibm858 ibm858", "cp858", .single (cp850.but [(213, "€")])),
  ("860 csibm860 ibm860", "cp860",
    .single (cp437.but [(132, "ãàÁçêÊèÍÔìÃÂÉÀÈôõòÚùÌÕÜ¢£Ù₧Ó"), (169, "Ò")])),
  ("861 cp_is csibm861 ibm861", "cp861",
    .single (cp437.but [(139, "ÐðÞ"), (149, "þûÝýÖÜø£Ø"), (164, "ÁÍÓÚ")])),
  ("862 cspc862latinhebrew ibm862", "cp862", .single (cp437.but [(128, span 0x5d0 27)])),
  ("863 csibm863 ibm863", "cp863",
    .single (cp437.but [(132, "Âà¶"), (141, "‗À§ÉÈÊôËÏûù¤ÔÜ¢£ÙÛƒ¦´óú¨¸³¯Î⌐¬½¼¾")])),
  ("865 csibm865 ibm865", "cp865", .single (cp437.but [(155, "ø£Ø"), (175, "¤")])),
  ("866 csibm866 ibm866", "cp866", .single cp866),
  ("869 cp_gr csibm869 ibm869", "cp869",
    .single (cp437.but [(128, "??????Ά?·¬¦‘’Έ―ΉΊΪΌ??ΎΫ©Ώ²³ά£έήίϊΐόύΑΒΓΔΕΖΗ½ΘΙ"), (181, "ΚΛΜΝ"),
      (189, "ΞΟ"), (198, "ΠΡ"), (207, "ΣΤΥΦΧΨΩαβγ"), (221, "δε▀ζηθικλμνξοπρσςτ΄\u00ad±υφχ§ψ΅°¨ωϋΰώ")])),
  ("8859 cp819 csisolatin1 ibm819 iso8859 iso8859_1 iso_8859_1 iso_8859_1_1987 iso_ir_100 l1 latin latin1",
    "charmap latin_1 raw_unicode_escape unicode_escape", .single latin),
  ("arabic asmo_708 csisolatinarabic ecma_114 iso_8859_6 iso_8859_6_1987 iso_ir_127",
    "iso8859_6",
    .single (ofUpper ("???¤???????،\u00ad?????????????؛???؟?" ++ span 0x621 26 ++ "?????" ++
      span 0x640 19 ++ "?????????????"))),
  ("", "cp1006",
    .single (ofUpper ("۰۱۲۳۴۵۶۷۸۹،؛\u00ad؟ﺁﺍﺎﺎﺏﺑﭖﭘﺓﺕﺗﭦﭨﺙﺛﺝﺟﭺﭼﺡﺣﺥﺧﺩﮄﺫﺭﮌﺯﮊﺱﺳﺵﺷﺹﺻﺽﺿﻁﻅ" ++
      span 0xfec9 9 ++ "ﻓﻕﻗﻙﻛﮒﮔﻝﻟﻠﻡﻣﮞﻥﻧﺅﻭﮦﮨﮩﮪﺀﺉﺊﺋﻱﻲﻳﮰﮮﹼﹽ"))),
  ("cp1051 ibm1051 r8 roman8", "hp_roman8",
    .single (ofUpper ("ÀÂÈÊËÎÏ´ˋˆ¨˜ÙÛ₤¯Ýý°ÇçÑñ¡¿¤£¥§ƒ¢âêôûáéóúàèòùäëöüÅîØÆåíøæÄìÖÜÉïßÔÁÃãÐðÍÌÓÒÕõŠšÚŸÿÞþ" ++
      "·µ¶¾—¼½ªº«■»±?"))),
  ("cp154 csptcp154 cyrillic_asian pt154", "ptcp154",
    .single (cp1251.but [(128, "ҖҒӮғ„…ҶҮҲүҠӢҢҚҺҸҗ"), (152, "ҳҷҡӣңқһҹ\u00a0ЎўЈӨҘҰ§Ё©Ә«¬ӯ®Ҝ°ұІіҙө¶·ё№ә»јҪҫҝ")])),
  ("", "cp720",
    .single (cp437.but [(128, "\u0080\u0081éâ\u0084à\u0086"), (141, "\u008d\u008e\u008f\u0090\u0651" ++
      "\u0652ô¤ـûùءآأؤ£" ++ span 0x625 17), (224, "ضطظع" ++
      "غفµ" ++ span 0x642 9 ++ "≡\u064b\u064c\u064d\u064e\u064f\u0650")])),
  ("", "cp737",
    .single (cp437.but [(128, "ΑΒΓΔΕΖΗΘΙΚΛΜΝΞΟΠΡΣΤΥΦΧΨΩαβγδεζηθικλμνξοπρσςτυφχψ"), (224, "ωάέήϊίόύϋώΆΈΉΊΌΎΏ±≥≤ΪΫ")])),
  ("", "cp856",
    .single (cp850.but [(128, span 0x5d0 27 ++ "?£?×??????????®¬½¼?"), (181, "???"), (198, "??"),
      (208, "?????????"), (222, "?▀??????µ???????")])),
  ("", "cp874", .single (iso11.but [(128, "€????…???????????‘’“”•–—????????")])),
  ("csisolatin2 iso_8859_2 iso_8859_2_1987 iso_ir_101 l2 latin2", "iso8859_2",
    .single iso2),
  ("csisolatin3 iso_8859_3 iso_8859_3_1988 iso_ir_109 l3 latin3", "iso8859_3",
    .single (latin.but [(161, "Ħ˘£¤?Ĥ§¨İŞĞĴ\u00ad?Ż°ħ²³´µĥ·¸ışğĵ½?żÀÁÂ?ÄĊĈ"), (208, "?ÑÒÓÔĠÖ×ĜÙÚÛÜŬŜßàáâ" ++
      "?äċĉ"), (240, "?ñòóôġö÷ĝùúûüŭŝ˙")])),
  ("csisolatin4 iso_8859_4 iso_8859_4_1988 iso_ir_110 l4 latin4", "iso8859_4",
    .single (iso10.but [(162, "ĸŖ¤ĨĻ§¨ŠĒĢŦ\u00adŽ¯°ą˛ŗ´ĩļˇ¸šēģŧŊž"), (207, "ĪĐŅŌĶÔÕÖ×ØŲÚÛÜŨŪ"),
      (239, "īđņōķôõö÷øųúûüũū˙")])),
  ("csisolatin5 iso_8859_9 iso_8859_9_1989 iso_ir_148 l5 latin5", "iso8859_9",
    .single (latin.but [(208, "Ğ"), (221, "İŞ"), (240, "ğ"), (253, "ış")])),
  ("csisolatin6 iso_8859_10 iso_8859_10_1992 iso_ir_157 l6 latin6", "iso8859_10",
    .single iso10),
  ("csisolatincyrillic cyrillic iso_8859_5 iso_8859_5_1988 iso_ir_144", "iso8859_5",
    .single (ofUpper ("ЁЂЃЄЅІЇЈЉЊЋЌ\u00ad" ++ span 0x40e 66 ++ "№ёђѓєѕіїјљњћќ§ўџ"))),
  ("csisolatingreek ecma_118 elot_928 greek greek8 iso_8859_7 iso_8859_7_1987 iso_ir_126",
    "iso8859_7", .single iso7),
  ("csisolatinhebrew hebrew iso_8859_8 iso_8859_8_1988 iso_ir_138", "iso8859_8",
    .single iso8),
  ("cskoi8r", "koi8_r", .single koi),
  ("hz_gb hz_gb_2312 hzgb", "hz", .single { ascii with lacks := ['~'] }),
  ("iso_8859_11 iso_8859_11_2001 thai", "iso8859_11", .single iso11),
  ("iso_8859_13 l7 latin7", "iso8859_13", .single iso13),
  ("iso_8859_14 iso_8859_14_1998 iso_celtic iso_ir_199 l8 latin8", "iso8859_14",
    .single (latin.but [(161, "Ḃḃ£ĊċḊ§Ẁ©ẂḋỲ\u00ad®ŸḞḟĠġṀṁ¶ṖẁṗẃṠỳẄẅṡ"), (208, "Ŵ"), (215, "Ṫ"),
      (222, "Ŷ"), (240, "ŵ"), (247, "ṫ"), (254, "ŷ")])),
  ("iso_8859_15 l9 latin9", "iso8859_15",
    .single (latin.but [(164, "€¥Š§š"), (180, "Žµ¶·ž¹º»ŒœŸ")])),
  ("iso_8859_16 iso_8859_16_2001 iso_ir_226 l10 latin10", "iso8859_16",
    .single (latin.but [(161, "ĄąŁ€„Š§š©Ș«Ź\u00adźŻ°±ČłŽ”¶·žčș»ŒœŸżÀÁÂĂÄĆ"), (208, "ĐŃÒÓÔŐÖŚŰÙÚÛÜĘȚßàáâă" ++
      "äć"), (240, "đńòóôőöśűùúûüęț")])),
  ("iso_ir_166 tis620 tis_620_0 tis_620_2529_0 tis_620_2529_1", "tis_620",
    .single (iso11.but [(160, "?")])),
  ("", "koi8_t",
    .single (koi.but [(128, "қғ‚Ғ„…†‡?‰ҳ‹ҲҷҶ?Қ‘’“”•–—?™?›?????ӯӮё¤ӣ¦§???«¬\u00ad®?°±²Ё?Ӣ¶·?№?»???")])),
  ("", "koi8_u", .single (koi.but [(164, "є╔ії"), (173, "ґ"), (180, "Є╣ІЇ"), (189, "Ґ")])),
  ("kz_1048 rk1048 strk1048_2002", "kz1048",
    .single (cp1251.but [(141, "ҚҺ"), (157, "қһџ\u00a0ҰұӘ¤Ө¦§Ё©Ғ«¬\u00ad®Ү°±Ііө"), (186, "ғ»әҢңү")])),
  ("mac_centeuro maccentraleurope maclatin2", "mac_latin2",
    .single (mac.but [(129, "ĀāÉĄÖÜáąČäčĆćéŹźĎíďĒēĖóėôöõúĚěü†°Ę"), (171, "ę¨≠ģĮįĪ≤≥īĶ∂∑łĻļĽľĹĺŅņŃ¬√ńŇ"),
      (203, "ňŐÕőŌ"), (216, "ōŔŕŘ‹›řŖŗŠ‚„šŚśÁŤťÍŽžŪÓÔūŮÚůŰűŲųÝýķŻŁżĢ")])),
  ("", "mac_croatian",
    .single (mac.but [(169, "Š™´¨≠Ž"), (180, "∆µ∂∑∏š∫ªºΩž"), (198, "Ć«Č"), (208, "Đ"),
      (216, "\uf8ff©⁄€‹›Æ»–"), (230, "ćÁč"), (240, "đ"), (249, "πË˚¸Êæ")])),
  ("maccyrillic", "mac_cyrillic",
    .single (mac.but [(128, span 0x410 32 ++ "†°Ґ£§•¶І®©™Ђђ≠Ѓѓ∞±≤≥іµґЈЄєЇїЉљЊњјЅ"), (203, "ЋћЌќѕ"),
      (215, "„ЎўЏџ№Ёёя" ++ span 0x430 31 ++ "€")])),
  ("macgreek", "mac_greek",
    .single (ofUpper ("Ä¹²É³ÖÜ΅àâä΄¨çéèêë£™îï•½‰ôö¦€ùûü†ΓΔΘΛΞΠß®©ΣΪ§≠°·Α±≤≥¥ΒΕΖΗΙΚΜΦΫΨΩάΝ¬ΟΡ≈Τ«»…\u00a0Υ" ++
      "ΧΆΈœ–―“”‘’÷ΉΊΌΎέήίόΏύαβψδεφγηιξκλμνοπώρστθωςχυζϊϋΐΰ\u00ad"))),
  ("maciceland", "mac_iceland", .single (mac.but [(160, "Ý"), (220, "ÐðÞþý")])),
  ("macintosh macroman", "mac_roman", .single mac),
  ("", "mac_romanian", .single (mac.but [(174, "ĂȘ"), (190, "ăș"), (222, "Țț")])),
  ("macturkish", "mac_turkish", .single (mac.but [(218, "ĞğİıŞş"), (245, "\uf8a0")])),
  ("", "palmos", .single (cp1252.but [(129, "\u0081"), (141, "♦♣♥♠"), (155, "\u009bœ\u009d\u009e")])),
  ("932 936 949 950 big5_hkscs big5_tw chinese cp1361 cp936 csbig5 csiso2022kr csiso58gb231280 csshiftjis
    euc_cn euc_jis2004 euccn eucgb2312_cn eucjis2004 eucjisx0213 eucjp euckr gb18030_2000 gb2312_1980
    gb2312_80 hkscs iso2022kr iso_2022_kr iso_ir_58 jisx0213 korean ks_c_5601 ks_c_5601_1987 ks_x_1001 ksc5601
    ksx1001 ms1361 ms932 ms936 ms949 ms950 ms_kanji mskanji s_jis s_jis_2004 s_jisx0213 shiftjis shiftjis2004
    shiftjisx0213 sjis sjis_2004 sjisx0213 u16 u32 u7 u_jis uhc ujis unicode_1_1_utf_7 unicodebigunmarked
    unicodelittleunmarked utf16 utf32 utf7 utf_16be utf_16le utf_32be utf_32le x_mac_japanese x_mac_korean
    x_mac_simp_chinese x_mac_trad_chinese",
    "big5 big5hkscs cp932 cp949 cp950 euc_jis_2004 euc_jisx0213 euc_jp euc_kr gb18030 gb2312 gbk iso2022_kr
    johab shift_jis shift_jis_2004 shift_jisx0213 utf_16 utf_16_be utf_16_le utf_32 utf_32_be utf_32_le
    utf_7", .wide),
  ("037 1026 1140 273 424 500 864 csibm037 csibm1026 csibm273 csibm424 csibm500 csibm864 ebcdic_cp_be
    ebcdic_cp_ca ebcdic_cp_ch ebcdic_cp_he ebcdic_cp_nl ebcdic_cp_us ebcdic_cp_wt ibm037 ibm039 ibm1026
    ibm1140 ibm273 ibm424 ibm500 ibm864",
    "cp037 cp1026 cp1140 cp273 cp424 cp500 cp864 cp875 mac_arabic mac_farsi",
    .foreign),
  ("base64 base_64 bz2 hex quopri quoted_printable quotedprintable rot13 uu zip zlib",
    "base64_codec bz2_codec hex_codec quopri_codec rot_13 uu_codec zlib_codec",
    .notText),
  ("", "idna undefined", .refused),
  ("", "punycode", .outOfRange)]

/-- A name in lower case with underscores between words of letters, digits and full stops. -/
def simplify (name : String) : String :=
  let parts := splitWords name.toList
  "_".intercalate (parts.map fun part => String.ofList (part.map Char.toLower))
where
  splitWords (s : List Char) : List (List Char) :=
    (s.splitBy fun a b => isPart a && isPart b).filter fun part => part.any isPart
  isPart (c : Char) : Bool := c.isAlphanum || c = '.'

/-- The encoding of a name. In other names a full stop may part words, too. -/
def ofName? (name : String) : Option Encoding :=
  let name := simplify name
  let loose := name.map fun c => if c = '.' then '_' else c
  (table.find? fun (others, own, _) =>
    (wordsOf (others ++ " " ++ own)).contains name || (wordsOf others).contains loose).map (·.2.2)

end Encoding

inductive EncodingError where
  | unknown (name : String)
  | notText (name : String)
  | wide
  | refused (name : String)
  | outOfRange
  deriving DecidableEq, Repr

def EncodingError.message : EncodingError → String
  | .unknown name => s!"unknown encoding: {name}"
  | .notText name =>
    s!"'{name}' is not a text encoding; use codecs.decode() to handle arbitrary codecs"
  | .wide => "multi-byte encodings are not supported"
  | .refused name =>
    let why :=
      if Encoding.simplify name = "idna" then "Unsupported error handling replace"
      else "undefined encoding"
    s!"decoding with '{name}' codec failed (UnicodeError: {why})"
  | .outOfRange => "'ascii' codec can't decode byte 0x80 in position 82: ordinal not in range(128)"

end QmlScript.Text
