import ObjectMarkup.CommandLine.Run
import ObjectMarkup.Proofs.Evaluation
import ObjectMarkup.Proofs.FileTrees
import ObjectMarkup.Proofs.LoadedTrees
import ObjectMarkup.Proofs.Reliable
import ObjectMarkup.Proofs.Spacing

/-!
# The command from end to end

What a run of the command comes to when its arguments are accepted and its files can be read as text
(`CommandLine.Invocation`). It writes a result just if the configuration has no error, the markup
has a root and no argument anywhere, and the tag of the root is built in (`Invocation.Accepts`);
else it fails with 1 and writes nothing. The result is the JSON of what the root is evaluated to
against one base (`Invocation.Writes`), and every report of the pass gives one warning.

The work was done elsewhere: with the built-in kinds nothing but the tag of the root can fail a
document (`process_ok_iff_builtin`), and compiling is evaluating where paths lead to plain values
only (`evaluates_compile`), and which markup can be read was settled for trees (`Draft.ofNode_ok_iff`).
What is added here is the configuration that is read, and that such a configuration can define plain
values only.
-/

namespace ObjectMarkup

open Markup (Document Draft Element LoadError)

/-! ### Configurations -/

namespace Config

section

variable {domains : Locator.Domains}

/-- The base that a node sets, if it is a node that does. -/
def base? (domains : Locator.Domains) (node : Kdl.Node) : Option Locator :=
  if node.name = "base" then (baseOf domains node).toOption else none

/-- The base of the last node that sets one. -/
def lastBase? (domains : Locator.Domains) (nodes : List Kdl.Node) : Option Locator :=
  (nodes.filterMap (base? domains)).getLast?

theorem base_withSymbol {c c' : Config} {node : Kdl.Node} (h : c.withSymbol node = .ok c') :
    c'.base = c.base := by
  rw [withSymbol] at h
  cases hvalue : singleArgument node with
  | error e =>
    rw [hvalue] at h
    cases h
  | ok value =>
    rw [hvalue] at h
    cases h
    rfl

/-- Symbols leave the base alone. -/
theorem base_withSymbols {nodes : List Kdl.Node} {c c' : Config}
    (h : nodes.foldlM withSymbol c = .ok c') : c'.base = c.base := by
  induction nodes generalizing c with
  | nil =>
    cases h
    rfl
  | cons node rest ih =>
    obtain ⟨c₁, hstep, hrest⟩ := foldlM_cons_eq_ok.mp h
    exact (ih hrest).trans (base_withSymbol hstep)

/-- A node sets its base or leaves the base as it was. -/
theorem base_withNode {node : Kdl.Node} {c c' : Config} (h : c.withNode domains node = .ok c') :
    c'.base = (base? domains node).or c.base := by
  rw [withNode] at h
  rw [base?]
  -- only the node of that name sets a base
  split at h
  · next hname =>
    rw [if_pos hname]
    cases hbase : baseOf domains node with
    | error e =>
      rw [hbase] at h
      cases h
    | ok l =>
      rw [hbase] at h
      cases h
      rfl
  · next hname =>
    rw [if_neg hname]
    split at h
    · exact base_withSymbols h
    · cases h
      rfl

/-- The last base that is set replaces those before it. -/
theorem base_withNodes {nodes : List Kdl.Node} {c c' : Config}
    (h : nodes.foldlM (withNode domains) c = .ok c') :
    c'.base = (lastBase? domains nodes).or c.base := by
  induction nodes generalizing c with
  | nil =>
    cases h
    rfl
  | cons node rest ih =>
    obtain ⟨c₁, hstep, hrest⟩ := foldlM_cons_eq_ok.mp h
    calc c'.base = (lastBase? domains rest).or c₁.base := ih hrest
      _ = ((lastBase? domains rest).or (base? domains node)).or c.base := by
        rw [base_withNode hstep, Option.or_assoc]
      _ = (lastBase? domains (node :: rest)).or c.base := by
        rw [lastBase?, lastBase?, List.filterMap_cons]
        -- a node that sets a base hides the ones before it
        cases base? domains node with
        | none => rw [Option.or_none]
        | some l => rw [List.getLast?_cons, Option.or_some]

/-- **The base of a configuration** is that of its last base node. -/
theorem base_read {text : String} {c : Config} (h : read domains text = .ok c) :
    c.base = (Kdl.Document.read? text).bind (lastBase? domains) := by
  rw [read] at h
  split at h
  · next nodes hnodes =>
    rw [hnodes]
    exact (base_withNodes h).trans Option.or_none
  · cases h

end

end Config

/-! ### Runs -/

namespace CommandLine

/-- A command line that is accepted, where the files that it names can be read as text. -/
structure Invocation (domains : Locator.Domains) (files : FileSystem) (args : List String) where
  arguments : Arguments
  accepted : Arguments.read domains args = .ok arguments
  /-- The text of the configuration, if one is named. -/
  configText : Option String
  configRead : arguments.config.map (fun path =>
    files.disk.text? (Locator.utf8Bytes path.toList)) = configText.map some
  /-- The names on the way to the markup. -/
  names : List (List UInt8)
  canonical : files.canonical? (Locator.utf8Bytes arguments.path.toList) = some names
  /-- The text of the markup. -/
  markup : String
  markupRead : files.disk.text? (FileSystem.absolute names) = some markup

namespace Invocation

variable {domains : Locator.Domains} {files : FileSystem} {args : List String}
  (i : Invocation domains files args)

/-- The texts are such that something is compiled to a value. -/
structure Accepts : Prop where
  config : ∀ text ∈ i.configText, ∃ c, Config.read domains text = .ok c
  markup : ∃ root rest, Kdl.Document.read? i.markup = some (root :: rest) ∧ root.Named ∧
    Text.nameKey root.name ∈ Kind.elements.flatMap Prod.snd

/-- The base of relative references: that of the arguments, else that of the last base node of the
configuration, else the directory that the markup is in. -/
def base : Locator :=
  (i.arguments.base.or (i.configText.bind fun text =>
    (Kdl.Document.read? text).bind (Config.lastBase? domains))).getD (.ofDirectory i.names.dropLast)

/-- The configuration, without one named the empty one. -/
def config? : Option Config :=
  match i.configText with
  | none => some .empty
  | some text => (Config.read domains text).toOption

/-- The compile of a draft under a configuration. -/
def compile (config : Config) (draft : Draft) : Outcome Value × Compilation :=
  CommandLine.compile domains i.arguments config i.names.dropLast draft files.disk

/-- What the root is evaluated with. -/
def evaluator (config : Config) : Evaluator :=
  ⟨world domains config files.disk, i.base⟩

/-- The root that a draft is built into. -/
def root (draft : Draft) : Element :=
  (draft.build (some (.ofDirectory i.names.dropLast)) 0).1

/-- The run has written the JSON of what the draft compiles to. -/
structure Writes (config : Config) (draft : Draft) (value : Value) (json : Json) : Prop where
  configured : i.config? = some config
  drafted : Draft.read i.markup = .ok draft
  compiled : (i.compile config draft).1 = .ok value
  /-- The value has a JSON. -/
  jsonOf : (i.compile config draft).2.pass.store.json? value = some json
  /-- That is written, with one warning for each report of the pass. -/
  written : run domains files args =
    ⟨0, (if i.arguments.compact then json.compactText else json.prettyText) ++ "\n",
      (i.compile config draft).2.pass.diagnostics.map warningText⟩
  /-- The two ways to write it differ in white space only. -/
  spaced : Json.tight .outside json.compactText.toList = json.compactText.toList ∧
    Json.tight .outside json.prettyText.toList = json.compactText.toList
  /-- Attributes were read against the base. -/
  based : ∀ key k, (i.compile config draft).2.pass.coercions.get? key = some k →
    k.base = some i.base
  /-- The root evaluates to a tree with that JSON. -/
  evaluated : ∃ tree, ((i.evaluator config).element (i.root draft)).1 = .ok tree ∧
    tree.json? = some json
  /-- The reports are those of the evaluation. -/
  reported : (i.compile config draft).2.pass.diagnostics
    = ((i.evaluator config).element (i.root draft)).2

/-- What a run comes to. -/
structure Settled : Prop where
  exit : (run domains files args).exit = 0 ↔ i.Accepts
  refuses : ¬i.Accepts → run domains files args = .failure 1
  writes : i.Accepts → ∃ config draft value json, i.Writes config draft value json

/-! #### What is read -/

theorem readConfig?_eq : readConfig? domains i.arguments files.disk = i.config? := by
  have hread := i.configRead
  rw [readConfig?, config?]
  -- without the option no file is read, and then no text stands for it
  cases hpath : i.arguments.config with
  | none =>
    rw [hpath] at hread
    cases htext : i.configText with
    | none => rfl
    | some text =>
      rw [htext] at hread
      cases hread
  | some path =>
    rw [hpath] at hread
    cases htext : i.configText with
    | none =>
      rw [htext] at hread
      cases hread
    | some text =>
      rw [htext] at hread
      have htext? : files.disk.text? (Locator.utf8Bytes path.toList) = some text :=
        Option.some.inj hread
      simp only [htext?]
      rfl

variable {config : Config} {draft : Draft}

theorem run_of_read (hc : i.config? = some config) (hd : Draft.read i.markup = .ok draft) :
    run domains files args = report i.arguments (i.compile config draft) := by
  have hsources : readSources? domains i.arguments files = some ⟨config, i.names.dropLast, draft⟩ := by
    rw [readSources?, i.readConfig?_eq, hc, i.canonical]
    simp only [Option.bind_eq_bind, Option.bind_some, i.markupRead, hd]
    rfl
  rw [run, i.accepted]
  simp only [hsources]
  rfl

theorem run_of_not_read
    (h : ∀ config draft, i.config? = some config → Draft.read i.markup ≠ .ok draft) :
    run domains files args = .failure 1 := by
  have hsources : readSources? domains i.arguments files = none := by
    rw [readSources?, i.readConfig?_eq, i.canonical]
    simp only [Option.bind_eq_bind, Option.bind_some, i.markupRead]
    -- reading stops at the first of the two that cannot be read
    cases hc : i.config? with
    | none => rfl
    | some config =>
      cases hd : Draft.read i.markup with
      | ok draft => exact absurd hd (h config draft hc)
      | error e => rfl
  rw [run, i.accepted]
  simp only [hsources]

/-- The configuration is read if it has no error. -/
theorem config?_eq_some_iff :
    (∃ config, i.config? = some config) ↔ ∀ text ∈ i.configText, ∃ c, Config.read domains text = .ok c := by
  rw [config?]
  cases i.configText with
  | none => exact iff_of_true ⟨_, rfl⟩ fun _ h => nomatch h
  | some text =>
    simp only [Option.mem_some_iff, forall_eq']
    cases Config.read domains text with
    | ok c => exact iff_of_true ⟨c, rfl⟩ ⟨c, rfl⟩
    | error e => exact iff_of_false (fun ⟨_, h⟩ => nomatch h) fun ⟨_, h⟩ => nomatch h

/-- Texts are accepted just if they are read and the root has a built-in tag. -/
theorem accepts_iff : i.Accepts ↔ ∃ config draft, i.config? = some config ∧
    Draft.read i.markup = .ok draft ∧ Text.nameKey draft.tag ∈ Kind.elements.flatMap Prod.snd := by
  constructor
  · rintro ⟨hconfig, root, rest, hnodes, hnamed, htag⟩
    obtain ⟨config, hc⟩ := i.config?_eq_some_iff.mpr hconfig
    obtain ⟨draft, hd⟩ := (Draft.ofNode_ok_iff root).mpr hnamed
    refine ⟨config, draft, hc, ?_, ?_⟩
    · rw [Draft.read, hnodes]
      exact hd
    · rw [Draft.tag_ofNode hd]
      exact htag
  · rintro ⟨config, draft, hc, hd, htag⟩
    refine ⟨i.config?_eq_some_iff.mp ⟨config, hc⟩, ?_⟩
    rw [Draft.read] at hd
    split at hd
    · next nodes hnodes =>
      cases nodes with
      | nil => cases hd
      | cons root rest =>
        -- the nodes behind the root are not looked at
        have hroot : Draft.ofNode root = .ok draft := hd
        refine ⟨root, rest, hnodes, (Draft.ofNode_ok_iff root).mp ⟨draft, hroot⟩, ?_⟩
        rw [← Draft.tag_ofNode hroot]
        exact htag
    · cases hd

/-! #### What is compiled -/

/-- A configuration is the empty one or was read. -/
theorem config_cases (hc : i.config? = some config) :
    (i.configText = none ∧ config = .empty) ∨
      ∃ text, i.configText = some text ∧ Config.read domains text = .ok config := by
  rw [config?] at hc
  split at hc
  · next htext => exact Or.inl ⟨htext, (Option.some.inj hc).symm⟩
  · next text htext =>
    refine Or.inr ⟨text, htext, ?_⟩
    cases hread : Config.read domains text with
    | error e =>
      rw [hread] at hc
      cases hc
    | ok c =>
      rw [hread] at hc
      exact congrArg Except.ok (Option.some.inj hc)

/-- A configuration defines plain values only. -/
theorem plain_config (hc : i.config? = some config) : (config.apply .empty).Plain := by
  obtain ⟨-, rfl⟩ | ⟨text, -, hread⟩ := i.config_cases hc
  · exact Namespace.plain_empty
  · exact Config.plain_apply hread Namespace.plain_empty

theorem base_config (hc : i.config? = some config) :
    config.base = i.configText.bind fun text =>
      (Kdl.Document.read? text).bind (Config.lastBase? domains) := by
  obtain ⟨htext, rfl⟩ | ⟨text, htext, hread⟩ := i.config_cases hc
  · rw [htext]
    rfl
  · rw [htext]
    exact Config.base_read hread

/-- The base of the pass, for a document that is in a directory. -/
theorem or_directory (hc : i.config? = some config) :
    ((i.arguments.base.or config.base).or (some (.ofDirectory i.names.dropLast))).or
      (some (.ofDirectory i.names.dropLast)) = some i.base := by
  rw [i.base_config hc, base]
  cases i.arguments.base.or _ <;> rfl

/-- The command compiles what the evaluator is compared with. -/
theorem compile_eq (config : Config) (draft : Draft) :
    i.compile config draft = ((i.evaluator config).compile
      ⟨i.root draft, some (.ofDirectory i.names.dropLast)⟩ (i.arguments.base.or config.base)
      (some (.ofDirectory i.names.dropLast)) .empty).process :=
  rfl

/-- There is a value just if the tag of the root is built in. -/
theorem compile_ok_iff (config : Config) (draft : Draft) :
    (∃ value, (i.compile config draft).1 = .ok value) ↔
      Text.nameKey draft.tag ∈ Kind.elements.flatMap Prod.snd := by
  rw [← Draft.tag_build draft (some (.ofDirectory i.names.dropLast)) 0, compile_eq]
  exact process_ok_iff_builtin _ ⟨i.root draft, _⟩ _ _ _ (Draft.numbered_build _ _ _)

/-- A value with a JSON is written. -/
theorem report_ok {arguments : Arguments} {r : Outcome Value × Compilation} {value : Value}
    {json : Json} (hvalue : r.1 = .ok value) (hjson : r.2.pass.store.json? value = some json) :
    report arguments r =
      ⟨0, (if arguments.compact then json.compactText else json.prettyText) ++ "\n",
        r.2.pass.diagnostics.map warningText⟩ := by
  obtain ⟨outcome, c⟩ := r
  cases hvalue
  simp only [report, hjson]

/-- Whatever is read from an attribute is read against the base. -/
theorem base_compile (hc : i.config? = some config) {key : AttributeKey} {k : Coercion}
    (hk : (i.compile config draft).2.pass.coercions.get? key = some k) : k.base = some i.base := by
  rw [compile_eq, ← Compilation.final] at hk
  exact Compilation.base_of_get?_final (i.or_directory hc) hk

/-- What is compiled is evaluated to the same outcome, with the same reports. -/
theorem compile_evaluates (draft : Draft) (hc : i.config? = some config) :
    (i.compile config draft).2.pass.diagnostics
        = ((i.evaluator config).element (i.root draft)).2 ∧
      ∀ value, (i.compile config draft).1 = .ok value →
        ∃ tree json, ((i.evaluator config).element (i.root draft)).1 = .ok tree ∧
          tree.json? = some json ∧
          (i.compile config draft).2.pass.store.json? value = some json := by
  rw [compile_eq, ← Compilation.final]
  -- a configured namespace has texts and numbers only, so evaluation covers it
  have hplain : (i.evaluator config).symbols.Plain := i.plain_config hc
  have h := evaluates_compile hplain ⟨i.root draft, _⟩ _ _ .empty (Draft.numbered_build _ _ _)
    (i.or_directory hc)
  exact ⟨h.diagnostics, h.json⟩

theorem writes_of_read (hc : i.config? = some config) (hd : Draft.read i.markup = .ok draft)
    (htag : Text.nameKey draft.tag ∈ Kind.elements.flatMap Prod.snd) :
    ∃ value json, i.Writes config draft value json := by
  obtain ⟨value, hvalue⟩ := (i.compile_ok_iff config draft).mpr htag
  obtain ⟨hreported, hjson⟩ := i.compile_evaluates draft hc
  obtain ⟨tree, json, htree, htreeJson, hvalueJson⟩ := hjson value hvalue
  -- what is left to say is what the run does
  refine ⟨value, json, hc, hd, hvalue, hvalueJson, ?_, Json.tight_texts json,
    fun key k hk => i.base_compile hc hk, ⟨tree, htree, htreeJson⟩, hreported⟩
  calc run domains files args = report i.arguments (i.compile config draft) := i.run_of_read hc hd
    _ = _ := report_ok hvalue hvalueJson

/-- Without a value nothing is written. -/
theorem fails_of_read (hc : i.config? = some config) (hd : Draft.read i.markup = .ok draft)
    (htag : Text.nameKey draft.tag ∉ Kind.elements.flatMap Prod.snd) :
    run domains files args = .failure 1 := by
  rw [i.run_of_read hc hd]
  cases hcompile : i.compile config draft with
  | mk outcome c =>
    cases outcome with
    | error e => rfl
    | ok value =>
      -- a value would mean that the tag is built in after all
      exact absurd ((i.compile_ok_iff config draft).mp ⟨value, congrArg Prod.fst hcompile⟩) htag

theorem refuses_of_not_accepts (h : ¬i.Accepts) : run domains files args = .failure 1 := by
  by_cases hread : ∃ config draft, i.config? = some config ∧ Draft.read i.markup = .ok draft
  · -- what is read and not accepted has a root with another tag
    obtain ⟨config, draft, hc, hd⟩ := hread
    exact i.fails_of_read hc hd fun htag => h (i.accepts_iff.mpr ⟨config, draft, hc, hd, htag⟩)
  · exact i.run_of_not_read fun config draft hc hd => hread ⟨config, draft, hc, hd⟩

/-- **A run of the command writes the JSON of the root, or else it fails with 1 and writes
nothing.** Which of the two, is decided by the texts that were read and the tag of the root. -/
theorem run_settled : i.Settled := by
  have hwrites : i.Accepts → ∃ config draft value json, i.Writes config draft value json := by
    intro h
    obtain ⟨config, draft, hc, hd, htag⟩ := i.accepts_iff.mp h
    exact ⟨config, draft, i.writes_of_read hc hd htag⟩
  refine ⟨⟨fun hexit => ?_, fun h => ?_⟩, i.refuses_of_not_accepts, hwrites⟩
  · by_contra h
    rw [i.refuses_of_not_accepts h] at hexit
    cases hexit
  · obtain ⟨config, draft, value, json, hw⟩ := hwrites h
    rw [hw.written]

end Invocation

/-! ### A run in a directory -/

/-- The file has the text. -/
theorem text?_of_disk {disk : Disk} {path : List UInt8} {text : String}
    (h : disk path = .ok text.toUTF8.data.toList) : disk.text? path = some text := by
  rw [Disk.text?, h]
  exact dif_pos text.isValidUTF8

def nameBytes (name : String) : FileName :=
  Locator.utf8Bytes name.toList

/-- A configuration with a base and a symbol. -/
def gameConfig : String :=
  "base \"mem://game/\"; symbols \x7b hp 7; \x7d"

/-- A generic record with a scalar for the symbol, with an image that cannot be fetched, and with a
child that has an unknown tag. -/
def gameMarkup : String :=
  "object \x7b data name=hp type=class value=hp; bitmap src=\"a.png\"; widget; \x7d"

/-- A directory with the configuration and a markup file. -/
def gameTree (markup : String) : FileTree :=
  ⟨[([nameBytes "work", nameBytes "conf.kdl"], gameConfig.toUTF8.data.toList),
    ([nameBytes "work", nameBytes "game.kdl"], markup.toUTF8.data.toList)], []⟩

def gameFiles (markup : String) : FileSystem :=
  (gameTree markup).fileSystem [nameBytes "work"]

/-- A run in the directory. -/
def inGame (markup : String) : Invocation .unmapped (gameFiles markup)
    ["--config", "conf.kdl", "--compact", "game.kdl"] where
  arguments := ⟨"game.kdl", none, some "conf.kdl", false, true⟩
  accepted := rfl
  configText := some gameConfig
  configRead := by
    have hread : (gameFiles markup).disk (FileSystem.relative [nameBytes "conf.kdl"])
        = .ok gameConfig.toUTF8.data.toList :=
      (FileTree.disk_relative_eq_ok_iff (by decide) (by decide +kernel)).mpr rfl
    exact congrArg some (text?_of_disk hread)
  names := [nameBytes "work", nameBytes "game.kdl"]
  canonical := by
    have hplain : ∀ n ∈ [nameBytes "game.kdl"], n.Plain := by decide +kernel
    exact (FileTree.canonical?_relative_eq_some_iff (by decide) hplain).mpr ⟨rfl, rfl⟩
  markup := markup
  markupRead := text?_of_disk
    ((FileTree.disk_absolute_eq_ok_iff (by decide) (by decide +kernel)).mpr rfl)

/-- The JSON of what the root of the markup is evaluated to, on one line, and the warnings. -/
def Invocation.evaluated? {files : FileSystem} {args : List String}
    (i : Invocation .unmapped files args) : Option (String × List String) := do
  let config ← i.config?
  let draft ← (Draft.read i.markup).toOption
  let tree ← ((i.evaluator config).element (i.root draft)).1.toOption
  let json ← tree.json?
  return (json.compactText, ((i.evaluator config).element (i.root draft)).2.map warningText)

/-- The symbol of the configuration is a property, and its base is the one against which the image was
looked for. An unknown tag of the root is refused. -/
theorem run_settled_game :
    run .unmapped (gameFiles gameMarkup) ["--config", "conf.kdl", "--compact", "game.kdl"] =
        ⟨0, "\x7b\"class\":\"object\",\"properties\":\x7b\"hp\":7\x7d," ++
            "\"children\":[\x7b\"class\":\"bitmap\"\x7d]\x7d" ++ "\n",
          ["warning: <bitmap> [src] unsupported scheme 'mem' in mem://game/a.png",
            "warning: <widget> unresolved tag 'widget'"]⟩ ∧
      run .unmapped (gameFiles "widget") ["--config", "conf.kdl", "--compact", "game.kdl"]
        = .failure 1 := by
  -- all that has to be computed: that it is accepted, and what the root is evaluated to
  obtain ⟨hconfig, htag, hshown⟩ : (inGame gameMarkup).config?.isSome = true ∧
      (Draft.read gameMarkup).toOption.map Draft.tag = some "object" ∧
      (inGame gameMarkup).evaluated? = some (
        "\x7b\"class\":\"object\",\"properties\":\x7b\"hp\":7\x7d," ++
          "\"children\":[\x7b\"class\":\"bitmap\"\x7d]\x7d",
        ["warning: <bitmap> [src] unsupported scheme 'mem' in mem://game/a.png",
          "warning: <widget> unresolved tag 'widget'"]) := by
    decide +kernel
  constructor
  · have haccepts : (inGame gameMarkup).Accepts := by
      obtain ⟨config, hc⟩ := Option.isSome_iff_exists.mp hconfig
      cases hd : Draft.read gameMarkup with
      | error e =>
        rw [hd] at htag
        cases htag
      | ok draft =>
        rw [hd] at htag
        have htag : draft.tag = "object" := Option.some.inj htag
        refine (inGame gameMarkup).accepts_iff.mpr ⟨config, draft, hc, hd, ?_⟩
        rw [htag]
        decide +kernel
    obtain ⟨config, draft, value, json, hw⟩ := (inGame gameMarkup).run_settled.writes haccepts
    obtain ⟨tree, htree, hjson⟩ := hw.evaluated
    -- what is written and reported is what the root is evaluated to
    simp only [Invocation.evaluated?, hw.configured, hw.drafted, htree, hjson, Except.toOption,
      Option.bind_eq_bind, Option.bind_some, Option.pure_def, Option.some.injEq, Prod.mk.injEq]
      at hshown
    have hcompact : (inGame gameMarkup).arguments.compact = true := rfl
    rw [hw.written, hw.reported, hshown.2, if_pos hcompact, hshown.1]
  · -- a root of an unknown tag is refused before anything is written
    refine (inGame "widget").run_settled.refuses fun h => ?_
    obtain ⟨root, rest, hnodes, -, htag⟩ := h.markup
    have hwidget : Kdl.Document.read? "widget" = some [⟨"widget", [], []⟩] := rfl
    cases hwidget.symm.trans hnodes
    exact absurd htag (by decide +kernel)

end CommandLine

end ObjectMarkup
