import Dukserver.Mpm.Handoff
import Dukserver.Mpm.Pipeline
import Dukserver.Http.UrlDecode
import Dukserver.Wsgi.Duk
import Dukserver.Wsgi.PutRequest
import Dukserver.Wsgi.PutBody
import Dukserver.Http.Response
import Dukserver.Wsgi.Response
import Dukserver.Pylib.Include
import Dukserver.Http.SendResponse
import Dukserver.Http.Build
import Dukserver.Http.SendRequest
import Dukserver.Http.Framing
import Dukserver.Http.RequestLength
import Dukserver.Http.ResponseLength
import Dukserver.Http.RoundTrip
import Dukserver.Http.Forms
import Dukserver.Http.UrlEncode
import Dukserver.Http.RequestLine
import Dukserver.Mpm.Shutdown
import Dukserver.Mpm.FailedWait
import Dukserver.Http.Escapes
import Dukserver.Wsgi.Chains
import Dukserver.Http.MapArray
import Dukserver.Hashmap.Calls
import Dukserver.Http.Blocks
import Dukserver.Http.UrlDecodeBlocks
import Dukserver.Http.UrlEncodeBlocks
import Dukserver.Http.UrlEncodeBounds
import Dukserver.Http.HeaderLines
import Dukserver.Http.BodyLength
import Dukserver.Http.HeaderMissing
import Dukserver.Http.UrlForms
import Dukserver.Wsgi.Arrays
import Dukserver.Lib.Backtrack
import Dukserver.Pylib.Abspath
import Dukserver.Wsgi.Stack
import Dukserver.Pylib.Join
import Dukserver.Pylib.Split
import Dukserver.Pylib.PsOpen
import Dukserver.Pylib.Descriptors
import Dukserver.Pylib.Children
import Dukserver.Pylib.FileObject
import Dukserver.Hashmap.Crc
import Dukserver.Pylib.PathVar
import Dukserver.Pylib.CombineArgs
import Dukserver.Http.BodyBuffer
import Dukserver.Pylib.NormpathLoops
import Dukserver.Lib.Progress
import Dukserver.Http.Exchange
import Dukserver.Mpm.Session
import Dukserver.Mpm.Progress
import Dukserver.Mpm.Close
import Dukserver.Libsocket.Usocket
import Dukserver.Http.ParseBlocks
import Dukserver.Http.ContentBlocks
import Dukserver.Http.SendBlocks
import Dukserver.Http.RecvEnds
import Dukserver.Http.RecvBlocks
import Dukserver.Http.ConnectionBlocks
import Dukserver.Lib.Interleave
import Dukserver.Sys.Interleave
import Dukserver.Http.ByCalls
import Dukserver.Mpm.Connections
import Dukserver.Wsgi.Visits
import Dukserver.Mpm.Contents
import Dukserver.Wsgi.Server
import Dukserver.Wsgi.Interleave
