import Mathlib.Data.List.TakeWhile
import MurlSystem.Naming.Items
import MurlSystem.Targets.Accepted

namespace MurlSystem

open Syntax

structure RemoteTarget where
  scheme : List Char
  user : Option (List Char)
  host : List Char
  port : Option (List Char)

namespace RemoteTarget

def isUserChar (c : Char) : Bool := isAlnum c || c == '.' || c == '_' || c == '-'

def login : Option (List Char) → List Char
  | none => []
  | some user => user ++ ['@']

def text (r : RemoteTarget) : List Char :=
  r.scheme ++ "://".toList ++ login r.user ++ r.host ++ marked ':' r.port

def schemes : Kind → List (List Char)
  | .ssh => ["ssh".toList]
  | .remoteDesktop => ["rdp".toList,"vnc".toList]
  | _ => []

structure Word (p : Char → Bool) (w : List Char) : Prop where
  nonempty : w ≠ []
  plain : w.head? ≠ some '-'
  chars : ∀ c ∈ w, p c = true

structure PortNumber (w : List Char) : Prop where
  digits : w ≠ [] ∧ ∀ c ∈ w, isDigit c = true
  range : 1 ≤ decimal w ∧ decimal w ≤ 65535

structure WellFormed (kind : Kind) (r : RemoteTarget) : Prop where
  scheme : r.scheme ∈ schemes kind
  user : ∀ u ∈ r.user, kind = .ssh ∧ Word isUserChar u
  host : Word isHostChar r.host
  port : ∀ p ∈ r.port, PortNumber p

end RemoteTarget

open RemoteTarget

section Pieces

theorem host_word {host : List Char} (hlen : ¬(host.isEmpty ||
    253 < (Text.bytes (String.ofList host)).length) = true) (hdash : ¬(host.head? == some '-') = true)
    (hall : ¬(!host.all isHostChar) = true) : Word isHostChar host := by
  refine ⟨?_,by simpa using hdash,by simpa using hall⟩
  rintro rfl
  exact hlen rfl

theorem port_number {port : List Char} (h : ¬(port.isEmpty || 5 < port.length || !port.all isDigit ||
    decimal port < 1 || 65535 < decimal port) = true) : PortNumber port := by
  simp only [Bool.not_eq_true,Bool.or_eq_false_iff,decide_eq_false_iff_not,
    Bool.not_eq_false'] at h
  obtain ⟨⟨⟨⟨hne,-⟩,hdigits⟩,hlow⟩,hhigh⟩ := h
  exact ⟨⟨by simpa using hne,by simpa using hdigits⟩,by omega,by omega⟩

theorem hostport_ok {s : List Char} (h : validateHostport s = .ok ()) :
    ∃ host port, s = host ++ marked ':' port ∧ Word isHostChar host ∧
      ∀ p ∈ port, PortNumber p := by
  unfold validateHostport at h
  rw [check_ok] at h
  obtain ⟨hne,h⟩ := h
  cases hr : Text.rsplitOnce ':' s with
  | none =>
    simp only [hr,check_ok,checked_ok] at h
    obtain ⟨hlen,hdash,hall⟩ := h
    exact ⟨s,none,by simp [marked],host_word hlen hdash hall,by simp⟩
  | some parts =>
    obtain ⟨host,port⟩ := parts
    simp only [hr,check_ok,checked_ok] at h
    obtain ⟨hport,hlen,hdash,hall⟩ := h
    obtain ⟨rfl,-⟩ := Text.rsplitOnce_some hr
    refine ⟨host,some port,rfl,host_word hlen hdash hall,?_⟩
    rintro p ⟨⟩
    exact port_number hport

theorem user_ok {user : List Char} (h : validateSshUser user = .ok ()) : Word isUserChar user := by
  unfold validateSshUser at h
  simp only [check_ok,checked_ok] at h
  obtain ⟨hlen,hall,hdash⟩ := h
  change ¬(!user.all isUserChar) = true at hall
  refine ⟨?_,by simpa using hdash,by simpa using hall⟩
  rintro rfl
  exact hlen rfl

end Pieces

section Shape

variable {kind : Kind} {target : List Char}

def remoteRest (target : List Char) : List Char := target.drop 6

structure RemoteShape (kind : Kind) (target : List Char) (r : RemoteTarget) : Prop where
  wellFormed : r.WellFormed kind
  authority : authorityOf (remoteRest target) = login r.user ++ r.host ++ marked ':' r.port
  whole : target = r.scheme ++ "://".toList ++ remoteRest target

theorem ssh_shape (h : validateSshTarget target = .ok ()) : ∃ r, RemoteShape .ssh target r := by
  unfold validateSshTarget at h
  cases hp : target.dropPrefix? "ssh://".toList with
  | none => simp only [hp,Fallible.throw_ok] at h
  | some rest =>
    obtain rfl : target = "ssh://".toList ++ rest := dropPrefix_iff.mp hp
    simp only [hp,check_ok] at h
    obtain ⟨hne,h⟩ := h
    cases hs : Text.splitOnce '@' (authorityOf rest) with
    | none =>
      rw [hs] at h
      obtain ⟨host,port,heq,hhost,hport⟩ := hostport_ok h
      exact ⟨⟨"ssh".toList,none,host,port⟩,⟨by simp [schemes],by simp,hhost,hport⟩,heq,rfl⟩
    | some parts =>
      obtain ⟨user,hostport⟩ := parts
      simp only [hs,check_ok,Fallible.seq_ok] at h
      obtain ⟨-,huser,h⟩ := h
      obtain ⟨hauth,-⟩ := Text.splitOnce_eq_some.mp hs
      obtain ⟨host,port,rfl,hhost,hport⟩ := hostport_ok h
      refine ⟨⟨"ssh".toList,some user,host,port⟩,⟨by simp [schemes],?_,hhost,hport⟩,?_,rfl⟩
      · rintro u ⟨⟩
        exact ⟨rfl,user_ok huser⟩
      · change authorityOf rest = _
        simp [hauth,login]

theorem remoteDesktop_shape (h : validateRemoteDesktopTarget target = .ok ()) :
    ∃ r, RemoteShape .remoteDesktop target r := by
  unfold validateRemoteDesktopTarget at h
  cases hp : (target.dropPrefix? "rdp://".toList).or (target.dropPrefix? "vnc://".toList) with
  | none => simp only [hp,Fallible.throw_ok] at h
  | some rest =>
    simp only [hp,check_ok] at h
    obtain ⟨-,h⟩ := h
    obtain ⟨host,port,heq,hhost,hport⟩ := hostport_ok h
    rcases Option.or_eq_some_iff.mp hp with hp | ⟨-,hp⟩
    · obtain rfl : target = "rdp://".toList ++ rest := dropPrefix_iff.mp hp
      exact ⟨⟨"rdp".toList,none,host,port⟩,⟨by simp [schemes],by simp,hhost,hport⟩,heq,rfl⟩
    · obtain rfl : target = "vnc://".toList ++ rest := dropPrefix_iff.mp hp
      exact ⟨⟨"vnc".toList,none,host,port⟩,⟨by simp [schemes],by simp,hhost,hport⟩,heq,rfl⟩

inductive RemoteAccepted : Kind → List Char → Prop where
  | ssh {target : List Char} (h : validateSshTarget target = .ok ()) : RemoteAccepted .ssh target
  | remoteDesktop {target : List Char} (h : validateRemoteDesktopTarget target = .ok ()) :
      RemoteAccepted .remoteDesktop target

theorem RemoteAccepted.shape (h : RemoteAccepted kind target) : ∃ r, RemoteShape kind target r := by
  cases h with
  | ssh h => exact ssh_shape h
  | remoteDesktop h => exact remoteDesktop_shape h

theorem schemes_length {scheme : List Char} (h : scheme ∈ schemes kind) : scheme.length = 3 := by
  cases kind <;> simp [schemes] at h
  · rw [h]
    rfl
  · rcases h with h | h <;> rw [h] <;> rfl

theorem RemoteTarget.WellFormed.rest {r : RemoteTarget} (h : r.WellFormed kind) :
    remoteRest r.text = login r.user ++ r.host ++ marked ':' r.port := by
  have hlen : (r.scheme ++ "://".toList).length = 6 := by
    simp [schemes_length h.scheme]
  have hdrop : (r.scheme ++ "://".toList ++ (login r.user ++ r.host ++ marked ':' r.port)).drop
      (r.scheme ++ "://".toList).length = login r.user ++ r.host ++ marked ':' r.port :=
    List.drop_left
  rw [hlen] at hdrop
  simpa [remoteRest,text] using hdrop

theorem authorityEnd_cases {c : Char} (h : isAuthorityEnd c = true) : c = '/' ∨ c = '?' ∨ c = '#' := by
  simpa [isAuthorityEnd,or_assoc] using h

theorem RemoteTarget.Word.free {p : Char → Bool} {w : List Char} (h : Word p w)
    (hp : p '/' = false ∧ p '?' = false ∧ p '#' = false) :
    ∀ c ∈ w, isAuthorityEnd c = false := by
  obtain ⟨hslash,hquery,hmark⟩ := hp
  intro c hc
  have hchar := h.chars c hc
  by_contra hend
  rcases authorityEnd_cases (by simpa using hend) with rfl | rfl | rfl
  · rw [hslash] at hchar
    cases hchar
  · rw [hquery] at hchar
    cases hchar
  · rw [hmark] at hchar
    cases hchar

theorem RemoteTarget.WellFormed.free {r : RemoteTarget} (h : r.WellFormed kind) :
    ∀ c ∈ remoteRest r.text, isAuthorityEnd c = false := by
  rw [h.rest]
  intro c hc
  rcases List.mem_append.mp hc with hc | hc
  · rcases List.mem_append.mp hc with hc | hc
    · cases hu : r.user with
      | none => simp [hu,login] at hc
      | some u =>
        rw [hu,login] at hc
        rcases List.mem_append.mp hc with hc | hc
        · exact (h.user u hu).2.free (by decide) c hc
        · rw [List.mem_singleton.mp hc]
          rfl
    · exact h.host.free (by decide) c hc
  · cases hport : r.port with
    | none => simp [hport,marked] at hc
    | some p =>
      rw [hport,marked] at hc
      rcases List.mem_cons.mp hc with rfl | hc
      · rfl
      · have hdigit := (h.port p hport).digits.2 c hc
        by_contra hend
        rcases authorityEnd_cases (by simpa using hend) with rfl | rfl | rfl <;>
          exact absurd hdigit (by decide)

theorem remote_target_exact (h : RemoteAccepted kind target) :
    (∃ r : RemoteTarget, r.text = target ∧ r.WellFormed kind) ↔
      ∀ c ∈ remoteRest target, isAuthorityEnd c = false := by
  constructor
  · rintro ⟨r,rfl,hr⟩
    exact hr.free
  · intro hfree
    obtain ⟨r,hr⟩ := h.shape
    refine ⟨r,?_,hr.wellFormed⟩
    have hauth : authorityOf (remoteRest target) = remoteRest target :=
      List.takeWhile_eq_self_iff.mpr (by simpa using hfree)
    rw [hr.whole,← hauth,hr.authority]
    simp [text]

theorem bastion_exact : RemoteAccepted .ssh "ssh://deploy@bastion:22".toList ∧
    ∃ r : RemoteTarget, r.text = "ssh://deploy@bastion:22".toList ∧ r.WellFormed .ssh := by
  have hok : RemoteAccepted .ssh "ssh://deploy@bastion:22".toList := .ssh (by decide +kernel)
  have hall : (remoteRest "ssh://deploy@bastion:22".toList).all (fun c => !isAuthorityEnd c) = true := by
    decide +kernel
  refine ⟨hok,(remote_target_exact hok).mpr fun c hc => ?_⟩
  simpa using List.all_eq_true.mp hall c hc

theorem text_follows_host : RemoteAccepted .ssh "ssh://host?-oProxyCommand=run me".toList ∧
    (¬∃ r : RemoteTarget, r.text = "ssh://host?-oProxyCommand=run me".toList ∧ r.WellFormed .ssh) ∧
    RemoteAccepted .remoteDesktop "rdp://host#/v:other x".toList ∧
    ¬∃ r : RemoteTarget, r.text = "rdp://host#/v:other x".toList ∧
      r.WellFormed .remoteDesktop := by
  refine ⟨.ssh (by decide +kernel),?_,.remoteDesktop (by decide +kernel),?_⟩
  · rintro ⟨r,htext,hr⟩
    have hfree := hr.free '?'
    rw [htext] at hfree
    exact absurd (hfree (by decide +kernel)) (by decide)
  · rintro ⟨r,htext,hr⟩
    have hfree := hr.free '#'
    rw [htext] at hfree
    exact absurd (hfree (by decide +kernel)) (by decide)

end Shape

end MurlSystem
