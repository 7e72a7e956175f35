import IqLogger.Stats.Http.Recognition
import IqLogger.Stats.Http.RequestHandler

/-!
# One connection

A `Connection` reads until the parser has a verdict, answers once, and is closed. The answer
is that of the handler to a request, and the page for a bad request to what is none.

So the bytes alone decide what is answered: whatever reads they come in, and whatever follows
a request (`Connection.answer_request`). As long as they are a beginning of a request, nothing is
answered (`Connection.answer_eq_none_iff`), and the statistics are sent to exactly those who
ask for a path that is decoded as `/stats` (`Connection.answer_ok_iff`).
-/

namespace IqLogger.Http

open Scanner RequestParser RequestHandler

namespace Connection

variable (v w : Int32) (stats : Bytes)

/-- What the connection has answered after some reads: `Connection::do_read`, up to the
`do_write`. -/
def answer (reads : List Bytes) : Option Reply :=
  match do_read (fresh v w) reads with
  | (.good, parser, _) => some (handle_request stats parser.2)
  | (.bad, _, _) => some (.stock_reply .bad_request)
  | (.indeterminate, _, _) => none

/-- **A request is answered by the handler**, whatever the reads are and whatever follows. -/
theorem answer_request (text : RequestText) (t : Bytes) (reads : List Bytes)
    (hreads : reads.flatten = text.encode ++ t) :
    ∃ req : Request, req.fields = text.fields ∧
      answer v w stats reads = some (handle_request stats req) := by
  obtain ⟨parser, hscan, hfields⟩ := scan_request v w t text
  refine ⟨parser.2, hfields, ?_⟩
  rw [answer, do_read, scanChunks_eq, hreads, hscan]

/-- **When there is no answer yet**: what has come in is the beginning of a request, and does
not begin with a whole one. -/
theorem answer_eq_none_iff (reads : List Bytes) :
    answer v w stats reads = none ↔
      (∀ text : RequestText, ¬text.encode <+: reads.flatten) ∧
        ∃ text : RequestText, reads.flatten <+: text.encode := by
  have hverdict : answer v w stats reads = none ↔
      (scan consume (fresh v w) reads.flatten).1 = .indeterminate := by
    rw [answer, do_read, scanChunks_eq]
    split
    · next h => simp [h]
    · next h => simp [h]
    · next h => simp [h]
  rw [hverdict, indeterminate_iff (recognizes v w)]
  constructor
  · rintro ⟨hno, _, _, ⟨text, rfl, -⟩, hpre⟩
    exact ⟨fun text => hno _ _ ⟨text, rfl, rfl⟩, text, hpre⟩
  · rintro ⟨hno, text, hpre⟩
    refine ⟨?_, _, _, ⟨text, rfl, rfl⟩, hpre⟩
    rintro _ _ ⟨text, rfl, -⟩
    exact hno text

/-- Every answer is framed. -/
theorem framed_answer {reads : List Bytes} {rep : Reply}
    (h : answer v w stats reads = some rep) : rep.Framed := by
  rw [answer] at h
  split at h
  · cases h
    exact framed_handle_request stats _
  · cases h
    exact Reply.framed_stock_reply .bad_request
  · cases h

/-- **Who is sent the statistics**: exactly who has sent a request for a path that is decoded
as `/stats`. -/
theorem answer_ok_iff (reads : List Bytes) :
    (∃ rep, answer v w stats reads = some rep ∧ rep.status = .ok) ↔
      ∃ text : RequestText, text.encode <+: reads.flatten ∧
        url_decode text.line.uri = (true, ascii "/stats") := by
  constructor
  · rintro ⟨rep, hanswer, hok⟩
    rw [answer, do_read, scanChunks_eq] at hanswer
    split at hanswer
    · next parser rest hscan =>
      cases hanswer
      obtain ⟨_, ⟨text, rfl, hfields⟩, hinput⟩ :=
        (good_iff (recognizes v w) reads.flatten rest _).mp ⟨parser, hscan, rfl⟩
      have huri : text.line.uri = parser.2.uri := congrArg Fields.uri hfields
      refine ⟨text, ⟨rest, hinput.symm⟩, ?_⟩
      rw [huri]
      exact (status_handle_request_eq_ok_iff stats parser.2).mp hok
    · cases hanswer
      cases hok
    · cases hanswer
  · rintro ⟨text, ⟨t, ht⟩, hpath⟩
    obtain ⟨req, hfields, hanswer⟩ := answer_request v w stats text t reads ht.symm
    have huri : req.uri = text.line.uri := congrArg Fields.uri hfields
    refine ⟨_, hanswer, (status_handle_request_eq_ok_iff stats req).mpr ?_⟩
    rw [huri, hpath]

/-- What is sent then. -/
theorem content_of_answer_ok {reads : List Bytes} {rep : Reply}
    (h : answer v w stats reads = some rep) (hok : rep.status = .ok) : rep.content = stats := by
  rw [answer] at h
  split at h
  · obtain rfl := Option.some.inj h
    rcases handle_request_cases stats _ with ⟨-, heq⟩ | ⟨-, status, hstatus, heq⟩
    · rw [heq]
    · rw [heq, Reply.stock_reply] at hok
      rcases hstatus with rfl | rfl
      · cases hok
      · cases hok
  · obtain rfl := Option.some.inj h
    cases hok
  · cases h

end Connection

end IqLogger.Http
