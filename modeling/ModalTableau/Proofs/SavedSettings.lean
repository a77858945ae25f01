import ModalTableau.Proofs.PlainDocuments
import ModalTableau.Settings.Environment

/-!
# Settings that are read back

Settings are written as a document of plain lines, one for every setting (`Settings.lines`), so the
overlay that the document is read as leaves nothing as it was (`ofTable?_toTable`). As the
explicit file it hides the values of the global one, and nothing but the form of that file matters:
the ceilings are checked when all layers are in place (`Settings.load_of_saved`). What is asked of the
libraries is no more than that they write and read plain lines and leave alone variables that are not
meant for the program (`Libraries.Lawful`); those of the program do (`Libraries.own_lawful`).
-/

namespace ModalTableau

-- ---------------------------------------------------------------------------
-- Libraries
-- ---------------------------------------------------------------------------

/-- No variable has a name that begins with `KTAB_`, whatever the case of the letters. -/
def Environment.Silent (env : Environment) : Prop :=
  ∀ v ∈ env, ¬ "ktab_".toList <+: v.1.toList.map foldCase

structure Libraries.Lawful (libs : Libraries) : Prop where
  writes_lines : ∀ lines : List Toml.Line, (lines.map (·.entry.1)).Nodup →
    libs.writeToml? (lines.map Toml.Line.entry) = some (Toml.Line.document lines)
  reads_lines : ∀ lines : List Toml.Line, (lines.map (·.entry.1)).Nodup →
    libs.readToml? (Toml.Line.document lines) = some (lines.map Toml.Line.entry)
  natural_of_silent : ∀ (env : Environment) (key : String), env.Silent → libs.natural env key = .missing
  boolean_of_silent : ∀ (env : Environment) (key : String), env.Silent → libs.boolean env key = .missing
  text_of_silent : ∀ (env : Environment) (key : String), env.Silent → libs.text env key = .missing

namespace Environment

variable {env : Environment} {key name value : String}

theorem about?_eq_none (h : ¬ "ktab_".toList <+: name.toList.map foldCase) :
    about? key name value = none := by
  rw [about?]
  split
  next path hname => exact absurd ⟨path, hname.symm⟩ h
  next => rfl

theorem Silent.lookup_eq (h : env.Silent) {α : Type} (convert : String → Option α) :
    lookup convert env key = .missing := by
  have hfind : env.find? key = none := by
    rw [find?, List.findSome?_eq_none_iff]
    intro v hv
    exact about?_eq_none (h v (List.mem_reverse.mp hv))
  rw [lookup, hfind]

end Environment

theorem Libraries.own_lawful : own.Lawful where
  writes_lines lines _ := Toml.Table.text?_lines lines
  reads_lines lines distinct := by
    show (Toml.Document.ofText? _).map _ = _
    rw [Toml.Document.ofText?_lines lines distinct]
    rfl
  natural_of_silent _ _ h := h.lookup_eq _
  boolean_of_silent _ _ h := h.lookup_eq _
  text_of_silent _ _ h := h.lookup_eq _

theorem Libraries.Lawful.overlay_eq {libs : Libraries} {env : Environment} (hlibs : libs.Lawful)
    (h : env.Silent) : env.overlay libs = .ok {} := by
  rw [Environment.overlay, hlibs.natural_of_silent env _ h, hlibs.natural_of_silent env _ h,
    hlibs.boolean_of_silent env _ h, hlibs.boolean_of_silent env _ h, hlibs.text_of_silent env _ h]
  rfl

-- ---------------------------------------------------------------------------
-- The document
-- ---------------------------------------------------------------------------

theorem Notation.ofToml?_tag (n : Notation) : ofToml? (.string n.tag) = some n := by
  cases n <;> rfl

theorem Notation.isPlain_tag (n : Notation) : n.tag.toList.all Toml.isPlain := by
  cases n <;> rfl

theorem Overlay.natural?_cast (n : Nat) : natural? n = some n := by simp [natural?]

namespace Settings

variable {s : Settings} {libs : Libraries}

def Writable (s : Settings) : Prop :=
  s.maxIterations < 9223372036854775808 ∧ s.maxWorlds < 9223372036854775808

def lines (s : Settings) (h : s.Writable) : List Toml.Line := [
  ⟨"max_iterations".toList, .integer s.maxIterations, _, by decide, List.all_eq_true.mp rfl,
    .integer h.1⟩,
  ⟨"max_worlds".toList, .integer s.maxWorlds, _, by decide, List.all_eq_true.mp rfl, .integer h.2⟩,
  ⟨"blocking".toList, .boolean s.blocking, _, by decide, List.all_eq_true.mp rfl, .boolean _⟩,
  ⟨"parallel".toList, .boolean s.parallel, _, by decide, List.all_eq_true.mp rfl, .boolean _⟩,
  ⟨"notation".toList, .string (String.ofList s.style.tag.toList), _, by decide,
    List.all_eq_true.mp rfl, .string (List.all_eq_true.mp s.style.isPlain_tag)⟩]

theorem entries_lines (h : s.Writable) : (s.lines h).map Toml.Line.entry = s.toTable := by
  simp [lines, Toml.Line.entry, toTable]

theorem distinct_lines (h : s.Writable) : ((s.lines h).map (·.entry.1)).Nodup := by
  have hkeys : (s.lines h).map (·.entry.1) =
      ["max_iterations", "max_worlds", "blocking", "parallel", "notation"] := rfl
  exact hkeys ▸ by decide

theorem toToml_eq (hlibs : libs.Lawful) (h : s.Writable) :
    s.toToml libs = .ok (Toml.Line.document (s.lines h)) := by
  have hwrite := hlibs.writes_lines (s.lines h) (distinct_lines h)
  rw [entries_lines h] at hwrite
  rw [toToml, hwrite]

def asOverlay (s : Settings) : Overlay :=
  ⟨some s.maxIterations, some s.maxWorlds, some s.blocking, some s.parallel, some s.style⟩

theorem ofTable?_toTable (s : Settings) :
    Overlay.ofTable? s.toTable = some s.asOverlay := by
  simp [Overlay.ofTable?, toTable, Overlay.insert?, Overlay.natural?_cast, Notation.ofToml?_tag,
    asOverlay]

end Settings

-- ---------------------------------------------------------------------------
-- The layers
-- ---------------------------------------------------------------------------

theorem Contents.text_toUTF8 (text : String) : Contents.text (.ok text.toUTF8) = .ok text := by
  have hread : String.fromUTF8? text.toUTF8 = some text := dif_pos text.isValidUTF8
  simp only [Contents.text, hread, bind, Except.bind]

namespace SettingsFile

variable {libs : Libraries}

/-- The file can be read, and says nothing but settings. -/
def WellFormed (libs : Libraries) (f : SettingsFile) : Prop := ∃ o, f.overlay libs = .ok o

theorem overlay_toUTF8 {name text : String} {o : Overlay}
    (h : (libs.readToml? text).bind Overlay.ofTable? = some o) :
    overlay libs ⟨name, .ok text.toUTF8⟩ = .ok o := by
  have htext : (Contents.text (.ok text.toUTF8)).mapError (SettingsError.unreadable name) =
      .ok text := by
    rw [Contents.text_toUTF8]
    rfl
  simp only [overlay, htext, bind, Except.bind, h]

theorem overlay_saved {s : Settings} {name : String} (hlibs : libs.Lawful) (h : s.Writable) :
    overlay libs ⟨name, .ok (Toml.Line.document (s.lines h)).toUTF8⟩ = .ok s.asOverlay := by
  have hread := hlibs.reads_lines (s.lines h) (Settings.distinct_lines h)
  rw [Settings.entries_lines h] at hread
  exact overlay_toUTF8 (by rw [hread, Option.bind_some, Settings.ofTable?_toTable])

end SettingsFile

namespace Settings

variable {s : Settings} {libs : Libraries} {global : Option SettingsFile} {file : SettingsFile}
  {env : Environment}

theorem overlayFile_ok_iff {t : Settings} :
    (∃ s, t.overlayFile libs global = .ok s) ↔ ∀ file ∈ global, file.WellFormed libs := by
  cases global with
  | none => simp [overlayFile]
  | some file =>
    cases h : file.overlay libs <;> simp [overlayFile, SettingsFile.WellFormed, h, Except.map]

theorem load_of_layers {t u : Settings} {explicit : Option SettingsFile} {o : Overlay}
    (hglobal : default.overlayFile libs global = .ok t) (hexplicit : t.overlayFile libs explicit = .ok u)
    (henv : env.overlay libs = .ok o) : load libs global explicit env = (u.overlay o).validate := by
  simp only [load, hglobal, hexplicit, henv, bind, Except.bind]

theorem overlayFile_some {o : Overlay} (t : Settings) (hfile : file.overlay libs = .ok o) :
    t.overlayFile libs (some file) = .ok (t.overlay o) := by
  rw [overlayFile, hfile]
  rfl

/-- With everything set by the explicit file, the global one can only fail. -/
theorem load_of_saved (hfile : file.overlay libs = .ok s.asOverlay)
    (henv : env.overlay libs = .ok {}) :
    load libs global (some file) env = default.overlayFile libs global >>= fun _ => s.validate := by
  cases hglobal : default.overlayFile libs global with
  | error e => simp only [load, hglobal, bind, Except.bind]
  | ok t => exact load_of_layers hglobal (overlayFile_some t hfile) henv

theorem validate_of_pos (hiterations : 0 < s.maxIterations) (hworlds : 0 < s.maxWorlds) :
    s.validate = .ok s := by
  rw [validate, if_neg (Nat.ne_of_gt hiterations), if_neg (Nat.ne_of_gt hworlds)]

def zeroes : SettingsFile :=
  ⟨"ktab.toml", .ok "max_worlds = 0 # none\n'max_iterations' = 0x0\n".toUTF8⟩

def extremes : Settings := ⟨1, 9223372036854775807, false, true, .unicode⟩

end Settings
end ModalTableau
