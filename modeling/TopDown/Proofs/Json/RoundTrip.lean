import TopDown.Config.Json
import TopDown.Proofs.Json.Ensured
import TopDown.Proofs.Json.Written
import TopDown.Rule.Json
import TopDown.Run.Options

/-!
# Configurations, options and rules survive JSON

What is written for a value is read as this value again. A text that somebody else has written may
look different: members in another order, arrays in the place of objects, defaults left out, members
that nobody knows. Writing what was read from it brings it into the one form that is written here,
and from then on neither the value nor the text changes.

Numbers are read up to sixty-four bits. So a value survives if its numbers have no more, and a value
that was read never has more.

## Main definitions

* `Json.Survives`: what was written is read again, and what was read can be written

## Main results

* `Config.reads_reader`, `RunOptions.reads_reader`, `Rule.reads_reader`: a written value is read
* `RunOptions.ensures_reader`, `Rule.ensures_reader`: numbers that are read have sixty-four bits
* `Json.survives`: configurations, options and lists of rules survive
-/

namespace TopDown

open Json (Reads Collects Reader)

namespace Json

variable {α : Type}

/-- What was written is read again, and what was read can be written. -/
structure Survives (write : α → String) (read : String → Except Refusal α)
    (Fits : α → Prop) : Prop where
  /-- A value is read from its text. -/
  read_write : ∀ a, Fits a → read (write a) = .ok a
  /-- Only values that can be written are read, whatever the text looks like. -/
  fits_of_read : ∀ text a, read text = .ok a → Fits a
  /-- Once a value that was read is written, neither the value nor the text changes any more. -/
  settles : ∀ text a, read text = .ok a →
    ∃ b, read (write a) = .ok b ∧ b = a ∧ write b = write a

/-- A reader of written values, all of which can be written, makes them survive. -/
theorem Survives.of_reads {reader : Reader α} {toJson : α → Json} {Fits : α → Prop}
    (hreads : ∀ a, Fits a → Reads reader (toJson a) a) (hfits : reader.Ensures Fits) :
    Survives (fun a => (toJson a).render) (Reader.readDocument reader) Fits where
  read_write a ha := readDocument_render (hreads a ha)
  fits_of_read _ _ h := hfits.of_readDocument h
  settles _ a h := ⟨a, readDocument_render (hreads a (hfits.of_readDocument h)), rfl, rfl⟩

/-- The values of a list are read if each of them is. -/
theorem reads_list_map {item : Reader α} {toJson : α → Json} {as : List α}
    (h : ∀ a ∈ as, Reads item (toJson a) a) :
    Reads (Reader.list item) (.array (as.map toJson)) as :=
  reads_list (List.forall₂_map_left_iff.2 (List.forall₂_same.2 h))

theorem eq_ok_of_toOption {outcome : Except Refusal α} {a : α}
    (h : outcome.toOption = some a) : outcome = .ok a := by
  cases outcome with
  | error refusal => cases h
  | ok found => exact congrArg Except.ok (Option.some.inj h)

end Json

/-! ## Configurations -/

namespace Config

theorem reads_reader (config : Config) : Reads reader config.toJson config := by
  have hconvention : Reads (Reader.fieldValue fields "convention" {})
      (.string config.convention.name) ⟨some config.convention, none⟩ := by
    rw [Json.fieldValue_eq_read rfl rfl]
    exact (Json.reads_variant config.convention.lookup_name).map fun _ => rfl
  have hepsilon : Reads (Reader.fieldValue fields "epsilon" ⟨some config.convention, none⟩)
      (.string config.epsilon) ⟨some config.convention, some config.epsilon⟩ := by
    rw [Json.fieldValue_eq_read rfl rfl]
    exact (Json.reads_string config.epsilon).map fun _ => rfl
  have hmembers := Collects.cons hconvention (.cons hepsilon (.nil _))
  exact (Json.reads_record hmembers "a configuration").map fun _ => rfl

end Config

/-! ## Options -/

namespace RunOptions

/-- The limit has sixty-four bits. -/
def Fits (options : RunOptions) : Prop :=
  options.maxSteps < wordBound

theorem reads_reader {options : RunOptions} (h : options.Fits) :
    Reads reader options.toJson options := by
  have hmaxSteps : Reads (Reader.fieldValue fields "max_steps" {}) (.number options.maxSteps)
      ⟨some options.maxSteps, .none⟩ := by
    rw [Json.fieldValue_eq_read rfl rfl]
    exact (Json.reads_natBelow h).map fun _ => rfl
  have hrecovery : Reads (Reader.fieldValue fields "recovery" ⟨some options.maxSteps, .none⟩)
      (.string options.recovery.name) ⟨some options.maxSteps, some options.recovery⟩ := by
    rw [Json.fieldValue_eq_read rfl rfl]
    exact (Json.reads_variant options.recovery.lookup_name).map fun _ => rfl
  have hmembers := Collects.cons hmaxSteps (.cons hrecovery (.nil _))
  exact (Json.reads_record hmembers "options").map fun _ => rfl

/-- The limit that is read, or the default. -/
theorem ensures_reader : Reader.Ensures reader Fits := by
  have hfields : ∀ field ∈ fields, ∀ m : Members, (∀ n ∈ m.maxSteps, n < wordBound) →
      (field.read m).Ensures fun m' => ∀ n ∈ m'.maxSteps, n < wordBound := by
    intro field hfield m hm
    simp only [fields, List.mem_cons, List.not_mem_nil, or_false] at hfield
    obtain rfl | rfl := hfield
    · exact (Reader.ensures_natBelow wordBound).bind fun n hn => .pure (by simpa using hn)
    · exact .after fun _ => .pure hm
  refine (Reader.Ensures.record hfields "options" (by simp)).bind fun m hm => .pure ?_
  cases hmax : m.maxSteps with
  | none => exact (by decide : 100 < wordBound)
  | some n => simpa [Fits] using hm n hmax

end RunOptions

/-! ## Rules -/

namespace Rule

/-- The numbers of the lines have sixty-four bits. -/
def Fits (rule : Rule) : Prop :=
  ∀ n ∈ rule.lines, n < wordBound

theorem reads_reader {rule : Rule} (h : rule.Fits) : Reads reader rule.toJson rule := by
  have hleft : Reads (Reader.fieldValue fields "left" {}) (.string rule.left)
      ⟨some rule.left, none, none⟩ := by
    rw [Json.fieldValue_eq_read rfl rfl]
    exact (Json.reads_string rule.left).map fun _ => rfl
  have halternatives : Reads (Reader.fieldValue fields "alternatives" ⟨some rule.left, none, none⟩)
      (.array (rule.alternatives.map Json.strings))
      ⟨some rule.left, some rule.alternatives, none⟩ := by
    rw [Json.fieldValue_eq_read rfl rfl]
    exact (Json.reads_list_map fun names _ =>
      Json.reads_list_map fun name _ => Json.reads_string name).map fun _ => rfl
  have hlines : Reads
      (Reader.fieldValue fields "lines" ⟨some rule.left, some rule.alternatives, none⟩)
      (.array (rule.lines.map .number))
      ⟨some rule.left, some rule.alternatives, some rule.lines⟩ := by
    rw [Json.fieldValue_eq_read rfl rfl]
    exact (Json.reads_list_map fun n hn => Json.reads_natBelow (h n hn)).map fun _ => rfl
  obtain ⟨left, alternatives, lines⟩ := rule
  cases lines with
  | nil =>
    have hmembers := Collects.cons hleft (.cons halternatives (.nil _))
    exact (Json.reads_record hmembers "a rule").map fun _ => rfl
  | cons line lines =>
    have hmembers := Collects.cons hleft (.cons halternatives (.cons hlines (.nil _)))
    exact (Json.reads_record hmembers "a rule").map fun _ => rfl

/-- The lines that are read, or none. -/
theorem ensures_reader : Reader.Ensures reader Fits := by
  have hfields : ∀ field ∈ fields, ∀ m : Members,
      (∀ lines ∈ m.lines, ∀ n ∈ lines, n < wordBound) →
      (field.read m).Ensures fun m' => ∀ lines ∈ m'.lines, ∀ n ∈ lines, n < wordBound := by
    intro field hfield m hm
    simp only [fields, List.mem_cons, List.not_mem_nil, or_false] at hfield
    obtain rfl | rfl | rfl := hfield
    · exact .after fun _ => .pure hm
    · exact .after fun _ => .pure hm
    · exact (Reader.ensures_natBelow wordBound).list.bind fun lines hlines =>
        .pure (by simpa using hlines)
  refine (Reader.Ensures.record hfields "a rule" (by simp)).bind fun m hm => ?_
  split
  · refine .pure ?_
    cases hlines : m.lines with
    | none => simp [Fits]
    | some lines => exact hm lines hlines
  · exact Reader.ensures_refuse _ _
  · exact Reader.ensures_refuse _ _

end Rule

/-- **Configurations, options and lists of rules survive JSON.** -/
theorem Json.survives :
    Json.Survives (fun config => config.toJson.render) Config.ofText (fun _ => True) ∧
      Json.Survives (fun options => options.toJson.render) RunOptions.ofText RunOptions.Fits ∧
      Json.Survives (fun rules => (Rule.listToJson rules).render) Rule.listOfText
        (fun rules => ∀ rule ∈ rules, rule.Fits) :=
  ⟨.of_reads (fun config _ => config.reads_reader) fun _ _ _ _ => trivial,
    .of_reads (fun _ => RunOptions.reads_reader) RunOptions.ensures_reader,
    .of_reads (fun _ h => reads_list_map fun rule hrule => rule.reads_reader (h rule hrule))
      Rule.ensures_reader.list⟩

/-- A member that is not known, a name as a key, an array in the place of an object, members in
another order, defaults that are left out: what is read from such texts survives. The limit is the
largest number of sixty-four bits, and one of the rules has lines. -/
theorem Json.survives_other_forms :
    let configText := " \x7b\"x\":[1e999], \"convention\":\x7b\"declared\":null\x7d\x7d"
    let config : Config := ⟨.declared, "ε"⟩
    let options : RunOptions := ⟨18446744073709551615, .panic⟩
    let rulesText :=
      "[\x7b\"alternatives\":[[\"\\u00e9\",\"\\n\"],[]],\"left\":\"\\\"\"\x7d,[\"B\",[],[3]]]"
    let rules : List Rule := [⟨"\"", [["é", "\n"], []], []⟩, ⟨"B", [], [3]⟩]
    (Config.ofText configText = .ok config ∧ Config.ofText config.toJson.render = .ok config ∧
      ∃ config', Config.ofText config.toJson.render = .ok config' ∧ config' = config ∧
        config'.toJson.render = config.toJson.render) ∧
    (RunOptions.ofText "[18446744073709551615]" = .ok options ∧ options.Fits ∧
      RunOptions.ofText options.toJson.render = .ok options ∧
      ∃ options', RunOptions.ofText options.toJson.render = .ok options' ∧ options' = options ∧
        options'.toJson.render = options.toJson.render) ∧
    (Rule.listOfText rulesText = .ok rules ∧ (∀ rule ∈ rules, rule.Fits) ∧
      Rule.listOfText (Rule.listToJson rules).render = .ok rules ∧
      ∃ rules', Rule.listOfText (Rule.listToJson rules).render = .ok rules' ∧ rules' = rules ∧
        (Rule.listToJson rules').render = (Rule.listToJson rules).render) := by
  intro configText config options rulesText rules
  obtain ⟨hconfigs, hoptions, hrules⟩ := Json.survives
  have hconfig : Config.ofText configText = .ok config :=
    Json.eq_ok_of_toOption (by decide +kernel)
  have hoption : RunOptions.ofText "[18446744073709551615]" = .ok options :=
    Json.eq_ok_of_toOption (by decide +kernel)
  have hrule : Rule.listOfText rulesText = .ok rules :=
    Json.eq_ok_of_toOption (by decide +kernel)
  have hlimit : options.Fits := (by decide : 18446744073709551615 < wordBound)
  have hlines : ∀ rule ∈ rules, rule.Fits := by
    simpa [rules, Rule.Fits] using (by decide : 3 < wordBound)
  exact ⟨⟨hconfig, hconfigs.read_write _ trivial, hconfigs.settles _ _ hconfig⟩,
    ⟨hoption, hoptions.fits_of_read _ _ hoption, hoptions.read_write _ hlimit,
      hoptions.settles _ _ hoption⟩,
    ⟨hrule, hrules.fits_of_read _ _ hrule, hrules.read_write _ hlines,
      hrules.settles _ _ hrule⟩⟩

end TopDown
