import QmlScript.Localization.Document
import QmlScript.Registry

/-!
# Localized texts of a program

A program carries the texts of catalogs. Only wordings that a document gives no status to are taken,
and a catalog without a language is passed over. A catalog takes the place of an earlier one for the
same language.
-/

namespace QmlScript.Registry

open QmlScript.Localization (Catalog)

def readyTexts (catalog : Catalog) : Table String (Table String (Option String)) :=
  catalog.contexts.values.foldl (fun texts context =>
    context.messages.values.foldl (fun texts m =>
      if m.wording.status = some Localization.stale then
        let contexts := (texts.get? m.source).getD {}
        texts.insert m.source (contexts.insert context.name m.wording.text)
      else texts) texts) {}

def noLanguageWarning (path : String) : String :=
  s!"WARNING: no language in {path}, translation ignored"

/-- Take the texts of a catalog in, unless it has no language, which is a warning. -/
def addCatalog (catalog : Catalog) (registry : Registry) : Registry × Option String :=
  match catalog.language with
  | none => (registry, some (noLanguageWarning catalog.path))
  | some language =>
    let texts := readyTexts catalog
    if texts.entries.isEmpty then (registry, none)
    else ({ registry with l10n := registry.l10n.insert language texts }, none)

end QmlScript.Registry
