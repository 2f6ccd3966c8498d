/- GID: Pypga/Remote/ServerStart
   generality: G
   digest: Starting the server: it listens with the token of the object, or nothing listens and the object has none. -/

import Pypga.Remote.ServerObject

set_option autoImplicit false
set_option relaxedAutoImplicit false

namespace Pypga.Remote.ServerStart

open Pypga.Foundation.Dialogue
open Pypga.Remote.ServerObject

section Echo

private theorem mentions_append (echo message : String) (silent : 'h' ∉ echo.toList)
    (last : echo.toList.getLast? ≠ some 's') :
    mentionsShell (echo ++ message) = mentionsShell message := by
  apply decide_eq_decide.mpr
  rw [String.toList_append]
  constructor
  · rintro ⟨before, after, split⟩
    rw [List.append_assoc] at split
    rcases List.append_eq_append_iff.mp split.symm with ⟨rest, -, there⟩ | ⟨rest, here, there⟩
    · exact ⟨rest, after, by rw [there, List.append_assoc]⟩
    · match rest with
      | [] => exact ⟨[], after, there⟩
      | [c] =>
        obtain ⟨rfl, -⟩ := List.cons.inj there
        exact absurd (by rw [here, List.getLast?_append]; rfl) last
      | c :: d :: rest =>
        obtain ⟨-, same⟩ := List.cons.inj there
        obtain ⟨rfl, -⟩ := List.cons.inj same
        exact absurd (by rw [here]; simp) silent
  · rintro ⟨before, after, split⟩
    exact ⟨echo.toList ++ before, after, by rw [← split]; simp⟩

private theorem digits_silent (n : ℕ) : 'h' ∉ (toString n).toList := by
  intro member
  have digit := Nat.isDigit_of_mem_toDigits (by decide) (by decide)
    (by simpa [Nat.repr] using member : 'h' ∈ Nat.toDigits 10 n)
  exact absurd digit (by decide)

private theorem launch_text (port : ℕ) (token : Token) :
    (Command.launch port token).text = serverPath ++ " " ++ toString port ++ " " ++ token := rfl

private theorem echo_silent {port : ℕ} {token : Token} (drawn : Drawn token) (message : String) :
    mentionsShell ((Command.launch port token).text ++ "\x0d\n" ++ message) = mentionsShell message := by
  have hex : 'h' ∉ token.toList := by
    intro member
    have digit := drawn.hex 'h' member
    exact absurd digit (by decide)
  have path : 'h' ∉ serverPath.toList := by decide
  have space : 'h' ∉ " ".toList := by decide
  have ending : 'h' ∉ "\x0d\n".toList := by decide
  have silent : 'h' ∉ ((Command.launch port token).text ++ "\x0d\n").toList := by
    rw [launch_text]
    simp only [String.toList_append, List.mem_append, not_or]
    exact ⟨⟨⟨⟨⟨path, space⟩, digits_silent port⟩, space⟩, hex⟩, ending⟩
  have last : ((Command.launch port token).text ++ "\x0d\n").toList.getLast? ≠ some 's' := by
    have line : "\x0d\n".toList.getLast? = some '\n' := by decide
    rw [String.toList_append, List.getLast?_append, line]
    exact fun same => absurd (Option.some.inj same) (by decide)
  exact mentions_append _ message silent last

end Echo

section Attempts

variable {σ : Type} {b : Board σ}

def Free (b : Board σ) (port : ℕ) (s : σ) : Prop := b.listening s port = none

/-- The server on the port has the token of the object; or none has it, and the object has no token. -/
def Settled (b : Board σ) (port : ℕ) (outcome : Outcome Token) (s : σ) : Prop :=
  match outcome with
  | (.ok t, token) => token = some t ∧ b.listening s port = some t ∧ Drawn t
  | (.error _, token) => token = none ∧ b.listening s port = none

/-- The same after `__init__`; an object that is not to start a server has no token either. -/
def Constructed (b : Board σ) (port : ℕ) (starting : Bool) (outcome : Outcome Unit) (s : σ) : Prop :=
  (∃ t, starting = true ∧ outcome = (.ok (), some t) ∧ b.listening s port = some t ∧ Drawn t) ∨
    ((∃ e, outcome.1 = .error e) ∨ starting = false) ∧ outcome.2 = none ∧ b.listening s port = none

variable (lawful : b.Lawful)
include lawful

private theorem stop_ensures (port : ℕ) :
    Ensures b.answer (fun _ => True) stop fun token s => token = none ∧ Free b port s := by
  refine Ensures.skip fun _ => ?_
  refine Ensures.bind (Q := fun _ => Free b port) ?_ fun _ => ?_
  · exact ensures_perform fun s _ => lawful.killall s port
  · exact ensures_done fun s free => ⟨rfl, free⟩

omit lawful in
def Harmless (k : Action) : Prop :=
  ∀ c, k = .run c → c ≠ .interrupt ∧ c ≠ .killall ∧ ∀ p t, c ≠ .launch p t

omit lawful in
private theorem harmless_other {k : Action} (other : ∀ c, k ≠ .run c) : Harmless k :=
  fun c same => absurd same (other c)

omit lawful in
private theorem harmless_line {c : Command} (interrupt : c ≠ .interrupt) (killall : c ≠ .killall)
    (launch : ∀ p t, c ≠ .launch p t) : Harmless (.run c) := by
  rintro _ ⟨⟩
  exact ⟨interrupt, killall, launch⟩

private theorem harmless_free (k : Action) (harmless : Harmless k) {port : ℕ} {s : σ}
    (free : Free b port s) : Free b port (b.after k s) :=
  (lawful.listening k s port harmless).trans free

private theorem line_ensures (port : ℕ) (c : Command) (interrupt : c ≠ .interrupt)
    (killall : c ≠ .killall) (launch : ∀ p t, c ≠ .launch p t) :
    Ensures b.answer (Free b port) (perform (.run c)) fun _ => Free b port :=
  ensures_perform fun _ free =>
    harmless_free lawful (.run c) (harmless_line interrupt killall launch) free

omit lawful in
/-- After the launch of a server it is known, from what the shell has said or not, whether it runs. -/
structure Judged (b : Board σ) (port : ℕ) (token : Token) (said : Bool) (s : σ) :
    Prop where
  drawn : Drawn token
  up : said = false → b.listening s port = some token
  down : said = true → b.listening s port = none

private theorem Judged.harmless {port : ℕ} {token : Token} {said : Bool} {s : σ}
    (judged : Judged b port token said s) {k : Action} (harmless : Harmless k) :
    Judged b port token said (b.after k s) := by
  have same := lawful.listening k s port harmless
  refine ⟨judged.drawn, ?_, ?_⟩
  · exact fun silent => same.trans (judged.up silent)
  · exact fun loud => same.trans (judged.down loud)

private theorem launch_judged {port : ℕ} {token : Token} {s : σ} (free : Free b port s)
    (drawn : Drawn token) :
    Judged b port token (mentionsShell ((b.answer (.run (.launch port token)) s).1 ++
      b.unread (b.after (.run (.launch port token)) s))) (b.after (.run (.launch port token)) s) := by
  obtain ⟨message, shown, complains⟩ := lawful.transcript s port token
  rw [shown, echo_silent drawn message]
  refine ⟨drawn, ?_, ?_⟩
  · intro silent
    have executes : b.Executes s := by
      by_contra broken
      rw [complains.mpr broken] at silent
      cases silent
    exact lawful.launch s port token free executes
  · intro loud
    exact (lawful.launch_fails s port token (complains.mp loud)).trans free

private theorem start_any_ensures (port : ℕ) (files : List String) (token : Option Token)
    (bare : files = [] → token = none) :
    Ensures b.answer (Free b port) (startAny port files token) (Settled b port) := by
  induction files generalizing token with
  | nil => exact ensures_done fun s free => ⟨bare rfl, free⟩
  | cons file rest ih =>
    refine Ensures.bind (Q := fun _ => Free b port) ?_ fun _ => ?_
    · exact ensures_perform fun s free =>
        harmless_free lawful (.put file serverPath) (harmless_other nofun) free
    refine Ensures.bind (line_ensures lawful port .chmod nofun nofun nofun) fun _ => ?_
    refine Ensures.bind (Q := fun token s => Free b port s ∧ Drawn token) ?_ fun token => ?_
    · exact ensures_perform fun s free =>
        ⟨harmless_free lawful .uuid4 (harmless_other nofun) free, lawful.drawn s⟩
    refine Ensures.bind (Q := fun result s =>
      Judged b port token (mentionsShell (result ++ b.unread s)) s) ?_ fun result => ?_
    · exact ensures_perform fun s ⟨free, drawn⟩ => launch_judged lawful free drawn
    refine Ensures.bind (Q := fun _ s =>
      Judged b port token (mentionsShell (result ++ b.unread s)) s) ?_ fun _ => ?_
    · refine ensures_perform fun s judged => ?_
      have after := judged.harmless lawful (harmless_other (k := .sleep .delay) nofun)
      rw [← lawful.sleep s .delay] at after
      exact after
    refine Ensures.bind (Q := fun more s =>
      Judged b port token (mentionsShell (result ++ more)) s) ?_ fun more => ?_
    · refine ensures_perform fun s judged => ?_
      have after := judged.harmless lawful (harmless_line (c := .flush) nofun nofun nofun)
      rw [← lawful.flush s] at after
      exact after
    split
    next loud =>
      refine Ensures.bind (Q := fun token s => token = none ∧ Free b port s) ?_ fun stopped => ?_
      · exact (stop_ensures lawful port).weaken (fun _ _ => trivial) fun _ _ after => after
      · intro s before
        obtain ⟨rfl, free⟩ := before
        exact ih none (fun _ => rfl) s free
    next silent =>
      refine ensures_done fun s judged => ⟨rfl, ?_, judged.drawn⟩
      exact judged.up (Bool.not_eq_true _ ▸ silent)

private theorem recently_ensures (port : ℕ) :
    Ensures b.answer (Free b port) bitstreamFlashedRecently fun _ => Free b port := by
  refine Ensures.bind (line_ensures lawful port .flush nofun nofun nofun) fun _ => ?_
  refine Ensures.bind (line_ensures lawful port .age nofun nofun nofun) fun result => ?_
  split
  · exact ensures_done fun s free => free
  · exact ensures_done fun s free => free

private theorem start_ensures (port : ℕ) (files : List String) :
    Ensures b.answer (Free b port) (start files port none) (Settled b port) := by
  refine Ensures.bind (recently_ensures lawful port) fun recently => ?_
  split
  · refine Ensures.bind (Q := fun _ => Free b port) ?_ fun _ => ?_
    · exact ensures_perform fun s free =>
        harmless_free lawful (.sleep .flashing) (harmless_other nofun) free
    · exact start_any_ensures lawful port files none fun _ => rfl
  · exact start_any_ensures lawful port files none fun _ => rfl

private theorem flash_ensures (port : ℕ) (filename : String) :
    Ensures b.answer (Free b port) (flashBitstream filename none) fun outcome s =>
      outcome.2 = none ∧ Free b port s := by
  refine Ensures.bind (Q := fun _ => Free b port) ?_ fun uploaded => ?_
  · exact ensures_perform fun s free =>
      harmless_free lawful (.put filename bitstreamPath) (harmless_other nofun) free
  split
  · refine Ensures.bind (Q := fun token s => token = none ∧ Free b port s) ?_ fun token => ?_
    · exact (stop_ensures lawful port).weaken (fun _ _ => trivial) fun _ _ after => after
    rintro s ⟨rfl, free⟩
    have rest := (line_ensures lawful port .flash nofun nofun nofun).bind fun _ =>
      (line_ensures lawful port .clean nofun nofun nofun).bind fun _ =>
        ensures_done (a := ((.ok (), none) : Outcome Unit)) (Q := fun outcome s =>
          outcome.2 = none ∧ Free b port s) fun _ free => ⟨rfl, free⟩
    exact rest s free
  · exact ensures_done fun s free => ⟨rfl, free⟩

private theorem start_if_ensures (starting : Bool) (port : ℕ) (files : List String) :
    Ensures b.answer (Free b port) (startIf starting files port none) (Constructed b port starting) := by
  cases starting with
  | false => exact ensures_done fun s free => .inr ⟨.inr rfl, rfl, free⟩
  | true =>
    refine Ensures.bind (start_ensures lawful port files) fun started => ?_
    obtain ⟨result, token⟩ := started
    intro s settled
    cases result with
    | ok t =>
      obtain ⟨rfl, listening, drawn⟩ := settled
      exact .inl ⟨t, rfl, rfl, listening, drawn⟩
    | error e => exact .inr ⟨.inl ⟨e, rfl⟩, settled⟩

private theorem construct_ensures (port : ℕ) (files : List String) (bitstream : Option String)
    (starting : Bool) :
    Ensures b.answer (fun _ => True) (construct files port bitstream starting)
      (Constructed b port starting) := by
  refine Ensures.bind (stop_ensures lawful port) fun token => ?_
  rintro s ⟨rfl, free⟩
  revert s
  refine Ensures.bind (line_ensures lawful port .mkdir nofun nofun nofun) fun _ => ?_
  refine Ensures.bind (line_ensures lawful port .cd nofun nofun nofun) fun _ => ?_
  cases bitstream with
  | none => exact start_if_ensures lawful starting port files
  | some filename =>
    refine Ensures.bind (flash_ensures lawful port filename) fun outcome => ?_
    obtain ⟨flashed, token⟩ := outcome
    rintro s ⟨none, free⟩
    obtain rfl : token = Option.none := none
    cases flashed with
    | error e => exact .inr ⟨.inl ⟨e, rfl⟩, rfl, free⟩
    | ok _ => exact start_if_ensures lawful starting port files s free

end Attempts

section Success

variable {σ : Type} {b : Board σ} (lawful : b.Lawful)
include lawful

private theorem installed_kept {k : Action} (other : ∀ file, k ≠ .put file serverPath)
    {file : String} {s : σ}
    (installed : b.installed s = some file) : b.installed (b.after k s) = some file :=
  (lawful.installed k s other).trans installed

private theorem launch_complains {file : String} {port : ℕ} {token : Token} {s : σ}
    (installed : b.installed s = some file) (drawn : Drawn token) :
    mentionsShell ((b.answer (.run (.launch port token)) s).1 ++
      b.unread (b.after (.run (.launch port token)) s)) = !b.works file := by
  obtain ⟨message, shown, complains⟩ := lawful.transcript s port token
  rw [shown, echo_silent drawn message]
  have executes : b.Executes s ↔ b.works file = true := by
    constructor
    · rintro ⟨other, there, works⟩
      rw [installed] at there
      cases there
      exact works
    · exact fun works => ⟨file, installed, works⟩
  rw [executes] at complains
  cases works : b.works file with
  | true =>
    rw [works] at complains
    exact Bool.not_eq_true _ ▸ fun loud => complains.mp loud rfl
  | false =>
    rw [works] at complains
    exact complains.mpr Bool.false_ne_true

private theorem start_any_succeeds (uploads : ∀ s src dst, (b.answer (.put src dst) s).1 = true)
    (port : ℕ)
    (files : List String) (token : Option Token) :
    Ensures b.answer (fun _ => True) (startAny port files token) fun outcome _ =>
      (∃ t, outcome.1 = .ok t) ↔ ∃ file ∈ files, b.works file = true := by
  induction files generalizing token with
  | nil => exact ensures_done fun _ _ => by simp
  | cons file rest ih =>
    refine Ensures.bind (Q := fun _ s => b.installed s = some file) ?_ fun _ => ?_
    · exact ensures_perform fun s _ => lawful.upload s file (uploads s file serverPath)
    refine Ensures.bind (Q := fun _ s => b.installed s = some file) ?_ fun _ => ?_
    · exact ensures_perform fun s there => installed_kept lawful (k := .run .chmod) nofun there
    refine Ensures.bind (Q := fun token s => b.installed s = some file ∧ Drawn token) ?_ fun token => ?_
    · exact ensures_perform fun s there =>
        ⟨installed_kept lawful (k := .uuid4) nofun there, lawful.drawn s⟩
    refine Ensures.bind (Q := fun result s =>
      mentionsShell (result ++ b.unread s) = !b.works file) ?_ fun result => ?_
    · exact ensures_perform fun s ⟨there, drawn⟩ => launch_complains lawful there drawn
    refine Ensures.bind (Q := fun _ s =>
      mentionsShell (result ++ b.unread s) = !b.works file) ?_ fun _ => ?_
    · refine ensures_perform fun s said => ?_
      rw [← lawful.sleep s .delay] at said
      exact said
    refine Ensures.bind (Q := fun more _ => mentionsShell (result ++ more) = !b.works file) ?_
      fun more => ?_
    · refine ensures_perform fun s said => ?_
      rw [← lawful.flush s] at said
      exact said
    split
    next loud =>
      rw [loud]
      refine Ensures.bind (Q := fun _ _ => b.works file = false) ?_ fun stopped => ?_
      · exact fun s said => by simpa using said.symm
      · intro s broken
        have others : (∃ t, (run b.answer (startAny port rest stopped) s).1.1 = .ok t) ↔
            ∃ file ∈ rest, b.works file = true := ih stopped s trivial
        refine others.trans ?_
        simp [broken]
    next silent =>
      refine ensures_done fun s said => ?_
      have quiet : mentionsShell (result ++ more) = false := eq_false_of_ne_true silent
      rw [quiet] at said
      have works : b.works file = true := by simpa using said.symm
      exact ⟨fun _ => ⟨file, List.mem_cons_self, works⟩, fun _ => ⟨token, rfl⟩⟩

private theorem start_succeeds (uploads : ∀ s src dst, (b.answer (.put src dst) s).1 = true)
    (port : ℕ)
    (files : List String) (token : Option Token) :
    Ensures b.answer (fun _ => True) (start files port token) fun outcome _ =>
      (∃ t, outcome.1 = .ok t) ↔ ∃ file ∈ files, b.works file = true := by
  refine Ensures.skip fun recently => ?_
  split
  · refine Ensures.skip fun _ => ?_
    exact start_any_succeeds lawful uploads port files token
  · exact start_any_succeeds lawful uploads port files token

omit lawful in
private theorem flash_succeeds (uploads : ∀ s src dst, (b.answer (.put src dst) s).1 = true)
    (filename : String) (token : Option Token) :
    Ensures b.answer (fun _ => True) (flashBitstream filename token) fun outcome _ =>
      outcome.1 = .ok () := by
  refine Ensures.bind (Q := fun uploaded _ => uploaded = true) ?_ fun uploaded => ?_
  · exact ensures_perform fun s _ => uploads s filename bitstreamPath
  · rintro s rfl
    rfl

private theorem start_if_succeeds (uploads : ∀ s src dst, (b.answer (.put src dst) s).1 = true)
    (starting : Bool) (port : ℕ) (files : List String) (token : Option Token) :
    Ensures b.answer (fun _ => True) (startIf starting files port token) fun outcome _ =>
      outcome.1 = .ok () ↔ starting = false ∨ ∃ file ∈ files, b.works file = true := by
  cases starting with
  | false => exact ensures_done fun _ _ => iff_of_true rfl (.inl rfl)
  | true =>
    refine Ensures.bind (start_succeeds lawful uploads port files token) fun started => ?_
    obtain ⟨result, token⟩ := started
    intro s works
    have works : (∃ t, result = .ok t) ↔ ∃ file ∈ files, b.works file = true := works
    cases result with
    | ok t => exact iff_of_true rfl (.inr (works.mp ⟨t, rfl⟩))
    | error e =>
      refine iff_of_false nofun ?_
      rintro (wrong | some_works)
      · cases wrong
      · obtain ⟨t, wrong⟩ := works.mpr some_works
        cases wrong

private theorem construct_succeeds (uploads : ∀ s src dst, (b.answer (.put src dst) s).1 = true)
    (port : ℕ)
    (files : List String) (bitstream : Option String) (starting : Bool) :
    Ensures b.answer (fun _ => True) (construct files port bitstream starting) fun outcome _ =>
      outcome.1 = .ok () ↔ starting = false ∨ ∃ file ∈ files, b.works file = true := by
  refine Ensures.skip fun token => ?_
  refine Ensures.skip fun _ => ?_
  refine Ensures.skip fun _ => ?_
  cases bitstream with
  | none => exact start_if_succeeds lawful uploads starting port files token
  | some filename =>
    refine Ensures.bind (flash_succeeds uploads filename token) fun outcome => ?_
    obtain ⟨flashed, token⟩ := outcome
    rintro s rfl
    exact start_if_succeeds lawful uploads starting port files token s trivial

end Success

section Constructor

variable {σ : Type} (b : Board σ) (lawful : b.Lawful)
include lawful

/-- Whatever ran on the board before: when a constructor that is to start a server returns, the server
on the port has the token of the object, as it was drawn; when it raises, or is not to start one,
no server has the port, and the object has no token. With all uploads done it raises exactly if it is
to start a server and none of the binaries works. -/
theorem construct_serves (port : ℕ) (files : List String) (bitstream : Option String)
    (starting : Bool) (s : σ) :
    ((run b.answer (construct files port bitstream starting) s).1.1 = .ok () → starting = true →
      ∃ t, (run b.answer (construct files port bitstream starting) s).1.2 = some t ∧
        b.listening (run b.answer (construct files port bitstream starting) s).2 port = some t ∧
        Drawn t) ∧
    ((∃ e, (run b.answer (construct files port bitstream starting) s).1.1 = .error e) ∨
        starting = false →
      (run b.answer (construct files port bitstream starting) s).1.2 = none ∧
      b.listening (run b.answer (construct files port bitstream starting) s).2 port = none) ∧
    ((∀ s src dst, (b.answer (.put src dst) s).1 = true) →
      ((run b.answer (construct files port bitstream starting) s).1.1 = .ok () ↔
        starting = false ∨ ∃ file ∈ files, b.works file = true)) := by
  have settled := construct_ensures lawful port files bitstream starting s trivial
  have succeeds := fun uploads => construct_succeeds lawful uploads port files bitstream starting s trivial
  generalize run b.answer (construct files port bitstream starting) s = r at settled succeeds ⊢
  obtain ⟨⟨result, token⟩, after⟩ := r
  refine ⟨?_, ?_, succeeds⟩
  · rintro rfl rfl
    rcases settled with ⟨t, -, same, listening, drawn⟩ | ⟨⟨e, wrong⟩ | wrong, -⟩
    · exact ⟨t, (Prod.mk.inj same).2, listening, drawn⟩
    · cases wrong
    · cases wrong
  · intro unstarted
    rcases settled with ⟨t, rfl, same, -⟩ | ⟨-, free⟩
    · obtain ⟨rfl, -⟩ := Prod.mk.inj same
      rcases unstarted with ⟨e, wrong⟩ | wrong
      · cases wrong
      · cases wrong
    · exact free

omit lawful in
private theorem stop_never_waits (P : σ → Prop) : Keeps b.answer P stop (· ≠ .sleep .flashing) := by
  refine (keeps_perform nofun).skip fun _ => ?_
  exact (keeps_perform nofun).skip fun _ => keeps_done

omit lawful in
private theorem start_any_never_waits (port : ℕ) (files : List String) (token : Option Token)
    (P : σ → Prop) :
    Keeps b.answer P (startAny port files token) (· ≠ .sleep .flashing) := by
  induction files generalizing token P with
  | nil => exact keeps_done
  | cons file rest ih =>
    refine (keeps_perform nofun).skip fun _ => ?_
    refine (keeps_perform nofun).skip fun _ => ?_
    refine (keeps_perform nofun).skip fun token => ?_
    refine (keeps_perform nofun).skip fun result => ?_
    refine (keeps_perform nofun).skip fun _ => ?_
    refine (keeps_perform nofun).skip fun more => ?_
    split
    · exact (stop_never_waits b _).skip fun stopped => ih stopped _
    · exact keeps_done

private theorem bitstream_kept {c : Command} :
    Ensures b.answer (fun s => b.bitstream s = false) (perform (.run c)) fun _ s =>
      b.bitstream s = false :=
  ensures_perform fun s gone => lawful.bitstream (.run c) s nofun gone

private theorem not_recently :
    Ensures b.answer (fun s => b.bitstream s = false) bitstreamFlashedRecently
    fun recently _ => recently = false := by
  refine Ensures.bind (bitstream_kept b lawful) fun _ => ?_
  refine Ensures.bind (Q := fun result _ => age result = none) ?_ fun result => ?_
  · exact ensures_perform fun s gone => lawful.age s gone
  · intro s ageless
    rw [ageless]
    rfl

private theorem start_never_waits (port : ℕ) (files : List String) (token : Option Token) :
    Keeps b.answer (fun s => b.bitstream s = false) (start files port token) (· ≠ .sleep .flashing) := by
  refine Keeps.bind ?_ (not_recently b lawful) fun recently => ?_
  · refine (keeps_perform nofun).skip fun _ => ?_
    refine (keeps_perform nofun).skip fun result => ?_
    split
    · exact keeps_done
    · exact keeps_done
  · rintro s rfl
    exact start_any_never_waits b port files token (fun _ => True) s trivial

/-- After an upload the file of the bitstream is gone again. -/
private theorem flash_removes (filename : String) (token : Option Token) :
    Ensures b.answer (fun _ => True) (flashBitstream filename token) fun outcome s =>
      outcome.1 = .ok () → b.bitstream s = false := by
  refine Ensures.skip fun uploaded => ?_
  split
  · refine Ensures.skip fun stopped => ?_
    refine Ensures.skip fun _ => ?_
    refine Ensures.bind (Q := fun _ s => b.bitstream s = false) ?_ fun _ => ?_
    · exact ensures_perform fun s _ => lawful.clean s
    · exact ensures_done fun s gone _ => gone
  · exact ensures_done fun s _ => nofun

/-- The constructor never waits for a bitstream it has flashed: the file whose age tells that it is
recent has been removed by then. -/
theorem construct_never_waits (port : ℕ) (files : List String) (filename : String) (starting : Bool)
    (s : σ) : .sleep .flashing ∉ actions b.answer (construct files port (some filename) starting) s := by
  have keeps : Keeps b.answer (fun _ => True) (construct files port (some filename) starting)
      (· ≠ .sleep .flashing) := by
    refine (stop_never_waits b _).skip fun token => ?_
    refine (keeps_perform nofun).skip fun _ => ?_
    refine (keeps_perform nofun).skip fun _ => ?_
    refine Keeps.bind ?_ (flash_removes b lawful filename token) fun outcome => ?_
    · refine (keeps_perform nofun).skip fun uploaded => ?_
      split
      · refine (stop_never_waits b _).skip fun stopped => ?_
        refine (keeps_perform nofun).skip fun _ => ?_
        exact (keeps_perform nofun).skip fun _ => keeps_done
      · exact keeps_done
    · obtain ⟨flashed, token⟩ := outcome
      intro s removed
      cases flashed with
      | error e => exact keeps_done (P := fun _ => True) s trivial
      | ok _ =>
        cases starting with
        | false => exact keeps_done (P := fun _ => True) s trivial
        | true =>
          have ends := (start_never_waits b lawful port files token).bind (Q := fun _ _ => True)
            (fun _ _ => trivial) fun started => keeps_done (a := (started.1.map fun _ => (), started.2))
          exact ends s (removed rfl)
  intro member
  exact keeps s trivial _ member rfl

end Constructor

section Demonstration

structure DemoBoard where
  listening : ℕ → Option Token
  installed : Option String
  unread : String
  bitstream : Bool

def demoToken : Token := "0123456789ab4def0123456789abcdef"

def demoAnswer : (k : Action) → DemoBoard → Reply k × DemoBoard
  | .run .killall, s => ("", { s with listening := fun _ => none })
  | .run .flush, s => (s.unread, { s with unread := "" })
  | .run .age, s => (if s.bitstream then "3" else "", s)
  | .run .clean, s => ("", { s with bitstream := false })
  | .run (.launch port token), s =>
    if s.installed = some "server_0.95" then
      (Command.text (.launch port token) ++ "\x0d\n",
        { s with
          listening := fun p => if p = port then some ((s.listening p).getD token) else s.listening p
          unread := "" })
    else (Command.text (.launch port token) ++ "\x0d\n", { s with unread := "-sh: not found" })
  | .run _, s => ("", s)
  | .put src dst, s =>
    (true, { s with
      installed := if dst = serverPath then some src else s.installed
      bitstream := s.bitstream || decide (dst = bitstreamPath) })
  | .sleep _, s => ((), s)
  | .uuid4, s => (demoToken, s)

def demo : Board DemoBoard where
  answer := demoAnswer
  listening := DemoBoard.listening
  installed := DemoBoard.installed
  unread := DemoBoard.unread
  bitstream := DemoBoard.bitstream
  works file := file = "server_0.95"

private theorem demo_drawn : Drawn demoToken := by
  have all : (demoToken.toList.all fun c => decide (c ∈ "0123456789abcdef".toList)) = true := by decide
  exact ⟨rfl, fun c member => of_decide_eq_true (List.all_eq_true.mp all c member), rfl⟩

private theorem demo_executes (s : DemoBoard) :
    demo.Executes s ↔ s.installed = some "server_0.95" := by
  constructor
  · rintro ⟨file, there, works⟩
    have same : file = "server_0.95" := of_decide_eq_true works
    rw [← same]
    exact there
  · exact fun there => ⟨_, there, rfl⟩

private theorem demo_launch (s : DemoBoard) (port : ℕ) (token : Token) :
    (demo.Executes s → demo.answer (.run (.launch port token)) s =
      (Command.text (.launch port token) ++ "\x0d\n",
        { s with
          listening := fun p => if p = port then some ((s.listening p).getD token) else s.listening p
          unread := "" })) ∧
    (¬ demo.Executes s → demo.answer (.run (.launch port token)) s =
      (Command.text (.launch port token) ++ "\x0d\n", { s with unread := "-sh: not found" })) := by
  rw [demo_executes]
  exact ⟨fun there => if_pos there, fun other => if_neg other⟩

private theorem demo_lawful : demo.Lawful where
  interrupt s port := .inl rfl
  killall s port := rfl
  launch s port token free executes := by
    rw [Board.after, (demo_launch s port token).1 executes]
    have bare : s.listening port = none := free
    show (if port = port then some ((s.listening port).getD token) else _) = some token
    rw [if_pos rfl, bare]
    rfl
  launch_fails s port token broken := by
    rw [Board.after, (demo_launch s port token).2 broken]
    rfl
  listening k s port other := by
    cases k with
    | run c =>
      obtain ⟨-, kept, silent⟩ := other c rfl
      cases c with
      | killall => exact absurd rfl kept
      | launch p t => exact absurd rfl (silent p t)
      | _ => rfl
    | _ => rfl
  transcript s port token := by
    by_cases executes : demo.Executes s
    · rw [Board.after, (demo_launch s port token).1 executes]
      exact ⟨"", rfl, by simp [executes, mentionsShell]⟩
    · rw [Board.after, (demo_launch s port token).2 executes]
      exact ⟨"-sh: not found", rfl, iff_of_true (by decide) executes⟩
  flush s := rfl
  sleep s pause := rfl
  upload s file _ := by
    show (if serverPath = serverPath then some file else s.installed) = some file
    exact if_pos rfl
  installed k s other := by
    cases k with
    | put src dst =>
      have differ : dst ≠ serverPath := fun same => other src (by rw [same])
      exact if_neg differ
    | run c =>
      cases c with
      | launch p t =>
        by_cases executes : demo.Executes s
        · rw [Board.after, (demo_launch s p t).1 executes]
          rfl
        · rw [Board.after, (demo_launch s p t).2 executes]
          rfl
      | _ => rfl
    | _ => rfl
  drawn s := demo_drawn
  clean s := rfl
  bitstream k s other gone := by
    have absent : s.bitstream = false := gone
    cases k with
    | put src dst =>
      have differ : dst ≠ bitstreamPath := fun same => other src (by rw [same])
      show (s.bitstream || decide (dst = bitstreamPath)) = false
      rw [absent, decide_eq_false differ]
      rfl
    | run c =>
      cases c with
      | launch p t =>
        by_cases executes : demo.Executes s
        · rw [Board.after, (demo_launch s p t).1 executes]
          exact absent
        · rw [Board.after, (demo_launch s p t).2 executes]
          exact absent
      | clean => rfl
      | _ => exact absent
    | _ => exact absent
  age s gone := by
    have absent : s.bitstream = false := gone
    show age (if s.bitstream then "3" else "") = none
    rw [absent]
    decide

def demoStart : DemoBoard := ⟨fun _ => some "stale", none, "", true⟩

theorem construct_serves_demo : ∃ t,
    (run demo.answer (construct ["server_0.92", "server_0.95"] 2222 (some "top.bin") true) demoStart).1 =
      (.ok (), some t) ∧
    demo.listening (run demo.answer (construct ["server_0.92", "server_0.95"] 2222 (some "top.bin") true)
      demoStart).2 2222 = some t := by
  obtain ⟨serves, -, succeeds⟩ := construct_serves demo demo_lawful 2222 ["server_0.92", "server_0.95"]
    (some "top.bin") true demoStart
  have returned := (succeeds fun _ _ _ => rfl).mpr (.inr ⟨"server_0.95", by decide, rfl⟩)
  obtain ⟨t, token, listening, -⟩ := serves returned rfl
  exact ⟨t, Prod.ext returned token, listening⟩

theorem construct_never_waits_demo : .sleep .flashing ∉
    actions demo.answer (construct ["server_0.92", "server_0.95"] 2222 (some "top.bin") true) demoStart :=
  construct_never_waits demo demo_lawful 2222 ["server_0.92", "server_0.95"] "top.bin" true demoStart

end Demonstration

end Pypga.Remote.ServerStart
